import HttpEcho.Options

/-!
# What a command line gives

A command line spells a list of options with their values (`Options.Spells`), each at most once, and
the options that are read off it have exactly these values (`Options.shown_parse`): setting one
option gives it the value that its text has, and changes no other (`Options.shown_set`). What is
left to do when some arguments were taken is `Options.Progress.Spells`, and by induction on the
arguments it is done in the order in which the options stand (`Options.spells_parseFrom`).
-/

namespace HttpEcho

/-- A value is what its source is read as, and is absent if there is no source. -/
inductive ReadAs {α β : Type} (read : β → Option α) : Option β → Option α → Prop
  | absent : ReadAs read none none
  | present {source : β} {value : α} : read source = some value →
    ReadAs read (some source) (some value)

namespace ReadAs

variable {α β : Type} {read : β → Option α} {source : Option β} {value? : Option α}

theorem of_eq_none (h : value? = none) : ReadAs read none value? := h ▸ .absent

/-- A value that can be read where nothing stands was read there. -/
theorem eq_none (h : ReadAs read source value?) (hnone : ReadAs read none value?) :
    source = none := by
  cases h with
  | absent => rfl
  | present => cases hnone

end ReadAs

namespace Options

variable {o o' : Options} {key : Key} {value text : String} {arguments : List String}
  {given : List (Key × String)} {p : Progress}

/-- The arguments spell options with their values, in this order. -/
inductive Spells : List String → List (Key × String) → Prop
  | nil : Spells [] []
  /-- The mark `--` at the end. -/
  | endOfOptions {text : String} : Argument.ofText text = .endOfOptions → Spells [text] []
  /-- An option with its value in one argument. -/
  | attached {text : String} {key : Key} {value : String} {arguments : List String}
      {given : List (Key × String)} :
      Argument.ofText text = .option (some (.key key)) (some value) → Spells arguments given →
        Spells (text :: arguments) ((key, value) :: given)
  /-- An option with its value in the next argument. -/
  | separate {text text' : String} {key : Key} {value : String} {arguments : List String}
      {given : List (Key × String)} :
      Argument.ofText text = .option (some (.key key)) none → Argument.ofText text' = .plain value →
        Spells arguments given → Spells (text :: text' :: arguments) ((key, value) :: given)

/-- The arguments spell one list. -/
theorem Spells.unique {given' : List (Key × String)} (h : Spells arguments given)
    (h' : Spells arguments given') : given = given' := by
  induction h generalizing given' with
  | nil =>
    cases h'
    rfl
  | endOfOptions hform =>
    cases h' with
    | endOfOptions => rfl
    | attached hform' => cases hform.symm.trans hform'
  | attached hform _ ih =>
    cases h' with
    | endOfOptions hform' | separate hform' => cases hform.symm.trans hform'
    | attached hform' hrest =>
      cases hform.symm.trans hform'
      rw [ih hrest]
  | separate hform hplain _ ih =>
    cases h' with
    | attached hform' => cases hform.symm.trans hform'
    | separate hform' hplain' hrest =>
      cases hform.symm.trans hform'
      cases hplain.symm.trans hplain'
      rw [ih hrest]

/-- Set options one after the other. -/
def setAll (o : Options) (given : List (Key × String)) : Except Stop Options :=
  given.foldlM (fun o entry => o.set entry.1 entry.2) o

/-! ### Spelling -/

/-- The arguments spell these options, the one that is not complete yet included. -/
def Progress.Spells (p : Progress) (arguments : List String) (given : List (Key × String)) : Prop :=
  match p.current with
  | none => Options.Spells arguments given
  | some (key, some value) =>
    ∃ given', given = (key, value) :: given' ∧ Options.Spells arguments given'
  | some (key, none) => ∃ text value arguments' given', arguments = text :: arguments' ∧
      Argument.ofText text = .plain value ∧ given = (key, value) :: given' ∧
        Options.Spells arguments' given'

/-- Completing an option sets it before those that come behind it. -/
theorem exists_of_settle (hsettle : p.settle = .ok o) (hspells : Spells arguments given)
    (hset : o.setAll given = .ok o') :
    ∃ given', p.Spells arguments given' ∧ p.options.setAll given' = .ok o' := by
  obtain ⟨options, current⟩ := p
  match current with
  | none =>
    cases hsettle
    exact ⟨given, hspells, hset⟩
  | some (key, none) => cases hsettle
  | some (key, some value) =>
    refine ⟨(key, value) :: given, ⟨given, rfl, hspells⟩, ?_⟩
    rw [setAll, List.foldlM_cons]
    change options.set key value = .ok o at hsettle
    rw [hsettle]
    exact hset

theorem exists_of_bind {α β : Type} {x : Except Stop α} {f : α → Except Stop β} {b : β}
    (h : x.bind f = .ok b) : ∃ a, x = .ok a ∧ f a = .ok b := by
  cases x with
  | error stop => cases h
  | ok a => exact ⟨a, rfl, h⟩

theorem exists_of_map {α β : Type} {x : Except Stop α} {f : α → β} {b : β} (h : x.map f = .ok b) :
    ∃ a, x = .ok a ∧ f a = b := by
  cases x with
  | error stop => cases h
  | ok a => exact ⟨a, rfl, Except.ok.inj h⟩

/-- **What is accepted is spelled out by the arguments**, and set in their order. -/
theorem spells_parseFrom (h : parseFrom p arguments = .ok o) :
    ∃ given, p.Spells arguments given ∧ p.options.setAll given = .ok o := by
  induction arguments generalizing p with
  | nil => exact exists_of_settle h .nil rfl
  | cons text rest ih =>
    rw [parseFrom] at h
    cases hform : Argument.ofText text with
    | endOfOptions =>
      rw [hform] at h
      dsimp only at h
      split at h
      case isTrue hempty =>
        rw [List.isEmpty_iff.1 hempty]
        exact exists_of_settle h (.endOfOptions hform) rfl
      case isFalse => cases h
    | plain value =>
      rw [hform] at h
      obtain ⟨next, htake, hrest⟩ := exists_of_bind h
      obtain ⟨given, hspells, hset⟩ := ih hrest
      -- the value belongs to the option that is not complete
      obtain ⟨options, current⟩ := p
      match current with
      | some (key, none) =>
        cases htake
        obtain ⟨given', rfl, hgiven⟩ := hspells
        exact ⟨_, ⟨text, value, rest, given', rfl, hform, rfl, hgiven⟩, hset⟩
      | none | some (key, some value') => cases htake
    | option name attached =>
      rw [hform] at h
      obtain ⟨next, htake, hrest⟩ := exists_of_bind h
      obtain ⟨given, hspells, hset⟩ := ih hrest
      match name, attached with
      | some (.key key), none =>
        obtain ⟨options, hsettle, rfl⟩ := exists_of_map htake
        obtain ⟨text', value, arguments', given', rfl, hplain, rfl, hgiven⟩ := hspells
        exact exists_of_settle hsettle (.separate hform hplain hgiven) hset
      | some (.key key), some value =>
        obtain ⟨options, hsettle, hoptions⟩ := exists_of_bind htake
        obtain ⟨options', hvalue, rfl⟩ := exists_of_map hoptions
        refine exists_of_settle hsettle (.attached hform hspells) ?_
        rw [setAll, List.foldlM_cons]
        dsimp only
        rw [hvalue]
        exact hset
      | some .help, none | some .version, none =>
        obtain ⟨options, -, hstop⟩ := exists_of_bind htake
        cases hstop
      | some .help, some value | some .version, some value | none, _ => cases htake

/-! ### Values -/

/-- The path that a text is. -/
def path? (text : String) : Option String := if text.isEmpty then none else some text

theorem eq_of_path? {path : String} (h : path? text = some path) : path = text := by
  rw [path?] at h
  split at h
  case isTrue => cases h
  case isFalse => exact (Option.some.inj h).symm

/-- The number of 64 bits that a text is. -/
def number? (text : String) : Option Nat := (word? text).toOption

/-- The option is as its text says, and not set if there is no text. -/
def Shown (o : Options) (text : Option String) : Key → Prop
  | .config => ReadAs path? text o.config
  | .listen => ReadAs some text o.listen
  | .keepAliveTimeout => ReadAs number? text o.keepAliveTimeout
  | .headersTimeout => ReadAs number? text o.headersTimeout
  | .maxBodySize => ReadAs number? text o.maxBodySize
  | .echo => ReadAs EchoPolicy.ofName? text o.echo
  | .workers => ReadAs number? text o.workers
  | .logLevel => ReadAs some text o.logLevel

theorem shown_none (key : Key) : ({} : Options).Shown none key := by
  cases key <;> exact .absent

theorem number?_of_ok (n : Nat) (h : word? value = .ok n) : number? value = some n := by
  rw [number?, h]
  rfl

theorem path?_of_ok (path : String) (h : (if value.isEmpty then .error .emptyPath else .ok value) =
    (.ok path : Except Stop String)) : path? value = some path := by
  rw [path?]
  split at h
  case isTrue => cases h
  case isFalse hempty =>
    cases h
    exact if_neg hempty

theorem ofName?_of_ok (echo : EchoPolicy)
    (h : (EchoPolicy.ofName? value).elim (.error .unknownChoice) .ok =
      (.ok echo : Except Stop EchoPolicy)) : EchoPolicy.ofName? value = some echo := by
  cases hname : EchoPolicy.ofName? value with
  | none =>
    rw [hname] at h
    cases h
  | some echo' =>
    rw [hname] at h
    cases h
    rfl

/-- An option that can be set was not set before, and has the value of its text then. -/
theorem exists_of_setOnce {α : Type} {read : String → Option α} {old : Option α}
    {new : Except Stop α} {set : Option α → Options} (h : (setOnce old new).map set = .ok o')
    (hread : ∀ x, new = .ok x → read value = some x) :
    old = none ∧ ∃ x, read value = some x ∧ o' = set (some x) := by
  obtain ⟨x?, hset, rfl⟩ := exists_of_map h
  rw [setOnce] at hset
  split at hset
  case isTrue => cases hset
  case isFalse hold =>
    obtain ⟨x, hnew, rfl⟩ := exists_of_map hset
    exact ⟨Option.not_isSome_iff_eq_none.1 hold, x, hread x hnew, rfl⟩

/-- **Setting an option** that was not set before gives it the value of its text, and changes no
other. -/
theorem shown_set (h : o.set key value = .ok o') :
    o.Shown none key ∧ o'.Shown (some value) key ∧
      ∀ other ≠ key, ∀ text, o'.Shown text other ↔ o.Shown text other := by
  cases key with
  | config =>
    obtain ⟨hold, x, hx, rfl⟩ := exists_of_setOnce h path?_of_ok
    refine ⟨.of_eq_none hold, .present hx, fun other hne text => ?_⟩
    cases other <;> first | exact absurd rfl hne | exact Iff.rfl
  | listen | logLevel =>
    obtain ⟨hold, x, hx, rfl⟩ := exists_of_setOnce h fun x hx => congrArg some (Except.ok.inj hx)
    refine ⟨.of_eq_none hold, .present hx, fun other hne text => ?_⟩
    cases other <;> first | exact absurd rfl hne | exact Iff.rfl
  | keepAliveTimeout | headersTimeout | maxBodySize | workers =>
    obtain ⟨hold, x, hx, rfl⟩ := exists_of_setOnce h number?_of_ok
    refine ⟨.of_eq_none hold, .present hx, fun other hne text => ?_⟩
    cases other <;> first | exact absurd rfl hne | exact Iff.rfl
  | echo =>
    obtain ⟨hold, x, hx, rfl⟩ := exists_of_setOnce h ofName?_of_ok
    refine ⟨.of_eq_none hold, .present hx, fun other hne text => ?_⟩
    cases other <;> first | exact absurd rfl hne | exact Iff.rfl

/-- An option that shows nothing was not given. -/
theorem Shown.eq_none {text : Option String} (h : o.Shown text key) (hnone : o.Shown none key) :
    text = none := by
  cases key <;> exact ReadAs.eq_none h hnone

/-- **What is set one after the other** is shown, with each option once. -/
theorem shown_setAll {before : List (Key × String)} (hnodup : (before.map Prod.fst).Nodup)
    (hshown : ∀ key, o.Shown (before.lookup key) key) (h : o.setAll given = .ok o') :
    ((before ++ given).map Prod.fst).Nodup ∧
      ∀ key, o'.Shown ((before ++ given).lookup key) key := by
  induction given generalizing o before with
  | nil =>
    cases h
    rw [List.append_nil]
    exact ⟨hnodup, hshown⟩
  | cons entry given ih =>
    obtain ⟨key, value⟩ := entry
    rw [setAll, List.foldlM_cons] at h
    obtain ⟨next, hset, hrest⟩ := exists_of_bind h
    obtain ⟨hnone, hsome, hothers⟩ := shown_set hset
    have hlookup : before.lookup key = none := (hshown key).eq_none hnone
    rw [← List.singleton_append, ← List.append_assoc]
    refine ih ?_ (fun other => ?_) hrest
    · rw [List.map_append, List.nodup_append]
      refine ⟨hnodup, List.pairwise_singleton _ key, fun other hmem =>
        List.forall_mem_singleton.2 ?_⟩
      rintro rfl
      obtain ⟨entry, hentry, rfl⟩ := List.mem_map.1 hmem
      exact absurd rfl (bne_iff_ne.1 (List.lookup_eq_none_iff.1 hlookup entry hentry))
    · rw [List.lookup_append]
      by_cases hother : other = key
      · subst hother
        rw [hlookup, List.lookup_cons_self]
        exact hsome
      · rw [hothers other hother, List.lookup_cons, beq_eq_false_iff_ne.2 hother]
        dsimp only
        rw [List.lookup_nil, Option.or_none]
        exact hshown other

/-- **A command line that is accepted** spells out options with their values, each at most once, and
what is read off it are these. -/
theorem shown_parse (h : parse arguments = .ok o) :
    ∃ given, Spells arguments given ∧ (given.map Prod.fst).Nodup ∧
      ∀ key, o.Shown (given.lookup key) key := by
  obtain ⟨given, hspells, hset⟩ := spells_parseFrom h
  obtain ⟨hnodup, hshown⟩ := @shown_setAll _ _ given [] List.nodup_nil shown_none hset
  exact ⟨given, hspells, hnodup, hshown⟩

end Options

end HttpEcho
