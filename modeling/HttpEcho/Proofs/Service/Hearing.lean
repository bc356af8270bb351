import HttpEcho.Proofs.Service.Stops

/-!
# What the connections hear

The connections of a service hear of its first stop, except for the one whose peer tells it: that
one hears of the next stop by somebody else. The later stops depend on what the connections hear,
but those that count do not (`Service.Undisturbed.heard?_eq`). So what each connection hears is what
`Stop.heard?` gives for the stops that come when all of them have heard
(`Service.Undisturbed.hears_spread`), and the first stop is then still the first
(`Service.Undisturbed.first?_spread`).
-/

namespace HttpEcho

namespace Visit

variable {s : Settings} {stop? : Option Nat} {heard number now time : Nat} {visitor : Visitor}
  {stop : Stop} {v : Visit}

/-- A visit that hears of an earlier stop goes on as it did, or is cut short. -/
theorem run_ofVisitor_cases (s : Settings) (number now : Nat) (visitor : Visitor)
    (hlater : ∀ t, stop? = some t → heard ≤ t) :
    (ofVisitor s (some heard) number now visitor).run = (ofVisitor s stop? number now visitor).run ∨
      (ofVisitor s (some heard) number now visitor).run.CutsShort
        (ofVisitor s stop? number now visitor).run (heard - now) := by
  refine Session.run_hearing s visitor.sendFailure? (visitor.peer stop? now) fun t ht => ?_
  obtain ⟨u, hu, rfl⟩ := Option.map_eq_some_iff.1 ht
  exact Nat.sub_le_sub_right (hlater u hu) now

/-- It tells no stop that it did not tell before. -/
theorem stops_subset_of_le (hlater : ∀ t, stop? = some t → heard ≤ t) :
    (ofVisitor s (some heard) number now visitor).stops ⊆
      (ofVisitor s stop? number now visitor).stops := by
  intro stop hstop
  rw [mem_stops] at hstop ⊢
  refine hstop.imp_right (Or.imp_right fun ⟨stamped, hmem, hevent, htime⟩ => ?_)
  refine ⟨stamped, ?_, hevent, htime⟩
  rcases run_ofVisitor_cases s number now visitor hlater with hrun | hcuts
  · exact hrun ▸ hmem
  · obtain ⟨common, own, later, hcut, hr, hown, -⟩ := hcuts.trace_eq
    rw [hcut, List.mem_append] at hmem
    rw [hr, List.mem_append]
    exact .inl (hmem.resolve_right fun hmem => (hown stamped hmem).2 (hevent ▸ rfl))

/-- It tells those that it told before it hears of the earlier one. -/
theorem mem_stops_of_lt (hlater : ∀ t, stop? = some t → heard ≤ t)
    (hstop : stop ∈ (ofVisitor s stop? number now visitor).stops) (hlt : stop.time < heard) :
    stop ∈ (ofVisitor s (some heard) number now visitor).stops := by
  rw [mem_stops] at hstop ⊢
  refine hstop.imp_right (Or.imp_right fun ⟨stamped, hmem, hevent, htime⟩ => ?_)
  refine ⟨stamped, ?_, hevent, htime⟩
  rcases run_ofVisitor_cases s number now visitor hlater with hrun | hcuts
  · exact hrun.symm ▸ hmem
  · obtain ⟨common, own, later, hcut, hr, -, hafter⟩ := hcuts.trace_eq
    have hheard := hcuts.stop_le
    rw [hr, List.mem_append] at hmem
    rw [hcut, List.mem_append]
    refine .inl (hmem.resolve_right fun hmem => ?_)
    have hle := hafter stamped hmem
    have hnow : (ofVisitor s stop? number now visitor).acceptedAt = now := rfl
    omega

/-- A connection has ended by a time exactly if its run has an ending, and not a later one. -/
theorem hasEnded_endedAt?_iff :
    Slots.hasEnded time v.endedAt? = true ↔
      v.run.ending.isSome = true ∧ v.acceptedAt + v.run.time ≤ time := by
  rw [endedAt?]
  cases v.run.ending with
  | none => exact ⟨nofun, nofun⟩
  | some ending =>
    rw [Slots.hasEnded, Option.map_some, Option.any_some, decide_eq_true_eq]
    exact (and_iff_right rfl).symm

/-- It has ended if it had ended without hearing of the stop. -/
theorem hasEnded_of_hearing (hlater : ∀ t, stop? = some t → heard ≤ t)
    (h : Slots.hasEnded time (ofVisitor s stop? number now visitor).endedAt? = true) :
    Slots.hasEnded time (ofVisitor s (some heard) number now visitor).endedAt? = true := by
  rw [hasEnded_endedAt?_iff] at h ⊢
  rcases run_ofVisitor_cases s number now visitor hlater with hrun | hcuts
  · rw [hrun]
    exact h
  · exact ⟨hcuts.isSome_ending, Nat.le_trans (Nat.add_le_add_left hcuts.time_le _) h.2⟩

/-- Before it hears of the stop it has ended only if it had ended without. -/
theorem hasEnded_hearing (hlater : ∀ t, stop? = some t → heard ≤ t) (hlt : time < heard) :
    Slots.hasEnded time (ofVisitor s (some heard) number now visitor).endedAt? =
      Slots.hasEnded time (ofVisitor s stop? number now visitor).endedAt? := by
  refine Bool.eq_iff_iff.2 ⟨fun h => ?_, hasEnded_of_hearing hlater⟩
  rw [hasEnded_endedAt?_iff] at h ⊢
  rcases run_ofVisitor_cases s number now visitor hlater with hrun | hcuts
  · rw [← hrun]
    exact h
  · have hstop := hcuts.stop_le
    have hnow : now + (ofVisitor s (some heard) number now visitor).run.time ≤ time := h.2
    omega

end Visit

namespace Service

variable {c : Context} {first : Stop} {visits : List Visit} {hear : Nat → Option Nat}

/-- Let the connections hear of stops at given times. -/
def hearingAll (c : Context) (hear : Nat → Option Nat) (visits : List Visit) : List Visit :=
  visits.map fun v => v.hearing c.settings (hear v.number)

/-- What they hear changes nothing but what they do. -/
theorem map_hearingAll {α : Type} {f : Visit → α}
    (hf : ∀ v heard?, f (v.hearing c.settings heard?) = f v)
    (hear : Nat → Option Nat) (visits : List Visit) :
    (hearingAll c hear visits).map f = visits.map f := by
  rw [hearingAll, List.map_map]
  exact List.map_congr_left fun v _ => hf v _

/-- What connections may hear if a stop is the first one: the one whose peer tells it hears of a
later one, and all others of this one. -/
structure Fits (c : Context) (first : Stop) (hear : Nat → Option Nat) : Prop where
  of_ne : ∀ number, first.teller? ≠ some number → hear number = some first.time
  lt_of_eq : ∀ number time, first.teller? = some number → hear number = some time →
    first.time < time
  le_stop : ∀ number time, hear number = some time → ∀ t, c.stop? = some t → time ≤ t
  stop?_eq : ∀ number, hear number = none → c.stop? = none

/-- No connection hears of a stop before the first one. -/
theorem Fits.le_of_eq_some (h : Fits c first hear) {number time : Nat}
    (hheard : hear number = some time) : first.time ≤ time := by
  by_cases hteller : first.teller? = some number
  · exact Nat.le_of_lt (h.lt_of_eq number time hteller hheard)
  · exact Nat.le_of_eq (Option.some.inj ((h.of_ne number hteller).symm.trans hheard))

/-- The visits of a loop that is not disturbed by stops of peers. -/
def Undisturbed (c : Context) (visits : List Visit) : Prop :=
  ∀ v ∈ visits, v.hearing c.settings c.stop? = v

/-- A connection that hears of a stop asks for no other ones than without it. -/
theorem Undisturbed.stops_subset (h : Undisturbed c visits) (hfits : Fits c first hear) {v : Visit}
    (hv : v ∈ visits) : (v.hearing c.settings (hear v.number)).stops ⊆ v.stops := by
  cases hheard : hear v.number with
  | none =>
    rw [← hfits.stop?_eq _ hheard, h v hv]
    exact List.Subset.refl _
  | some time =>
    have hsub : (v.hearing c.settings (some time)).stops ⊆ (v.hearing c.settings c.stop?).stops :=
      Visit.stops_subset_of_le (hfits.le_stop _ _ hheard)
    rwa [h v hv] at hsub

/-- The first stop is still asked for if it is heard of. -/
theorem Undisturbed.mem_stops (h : Undisturbed c visits) (hfits : Fits c first hear) {v : Visit}
    (hv : v ∈ visits) (hfirst : first ∈ v.stops) :
    first ∈ (v.hearing c.settings (hear v.number)).stops := by
  cases hheard : hear v.number with
  | none => rwa [← hfits.stop?_eq _ hheard, h v hv]
  | some time =>
    rw [← h v hv] at hfirst
    have hlt := hfits.lt_of_eq _ _ (Visit.mem_stops.1 hfirst).1 hheard
    exact Visit.mem_stops_of_lt (hfits.le_stop _ _ hheard) hfirst hlt

/-- By a time before the first stop, the same connections have ended. -/
theorem Undisturbed.hasEnded_hearing (h : Undisturbed c visits) (hfits : Fits c first hear)
    {v : Visit} (hv : v ∈ visits) {time : Nat} (htime : time < first.time) :
    Slots.hasEnded time (v.hearing c.settings (hear v.number)).endedAt? =
      Slots.hasEnded time v.endedAt? := by
  cases hheard : hear v.number with
  | none => rw [← hfits.stop?_eq _ hheard, h v hv]
  | some heard =>
    have hlt := Nat.lt_of_lt_of_le htime (hfits.le_of_eq_some hheard)
    have hsame : Slots.hasEnded time (v.hearing c.settings (some heard)).endedAt? =
        Slots.hasEnded time (v.hearing c.settings c.stop?).endedAt? :=
      Visit.hasEnded_hearing (hfits.le_stop _ _ hheard) hlt
    rwa [h v hv] at hsame

/-- Those that have ended by a time have done so when they hear of stops. -/
theorem Undisturbed.hasEnded_of_hearing (h : Undisturbed c visits) (hfits : Fits c first hear)
    {v : Visit} (hv : v ∈ visits) {time : Nat} (hended : Slots.hasEnded time v.endedAt? = true) :
    Slots.hasEnded time (v.hearing c.settings (hear v.number)).endedAt? = true := by
  cases hheard : hear v.number with
  | none => rwa [← hfits.stop?_eq _ hheard, h v hv]
  | some heard =>
    rw [← h v hv] at hended
    exact Visit.hasEnded_of_hearing (hfits.le_stop _ _ hheard) hended

/-- When the connections have heard of the first stop, it is still the first. -/
theorem Undisturbed.first?_stops (h : Undisturbed c visits) (hfits : Fits c first hear)
    (hfirst : Stop.first? (c.stops visits) = some first) :
    Stop.first? (c.stops (hearingAll c hear visits)) = some first := by
  obtain ⟨hmem, hleast⟩ := Stop.first?_spec hfirst
  refine Stop.first?_eq_some_iff.2 ⟨?_, fun stop hstop => hleast stop ?_⟩
  · refine Service.mem_stops.2 ((Service.mem_stops.1 hmem).imp_right fun ⟨v, hv, hstop⟩ => ?_)
    exact ⟨_, List.mem_map_of_mem hv, h.mem_stops hfits hv hstop⟩
  · refine Service.mem_stops.2 ((Service.mem_stops.1 hstop).imp_right fun ⟨v', hv', hstop⟩ => ?_)
    obtain ⟨v, hv, rfl⟩ := List.mem_map.1 hv'
    exact ⟨v, hv, h.stops_subset hfits hv hstop⟩

/-- The first stop, if a connection asks for it, is before the one from outside. -/
theorem lt_stop_of_first? {stops : List Stop} {number time : Nat}
    (hfirst : Stop.first? stops = some first) (hteller : first.teller? = some number)
    (hstop : ⟨time, none⟩ ∈ stops) : first.time < time := by
  have hnot := (Stop.first?_spec hfirst).2 _ hstop
  rw [Stop.isBefore_iff, Stop.after, Stop.after, hteller] at hnot
  simp only [Option.elim_none, Option.elim_some] at hnot
  omega

/-- What connections hear of some stops fits the first of them. -/
theorem fits_heard? (hfirst : Stop.first? (c.stops visits) = some first) :
    Fits c first (Stop.heard? (c.stops visits)) := by
  have hof : ∀ number, first.teller? ≠ some number →
      Stop.heard? (c.stops visits) number = some first.time := fun number hne => by
    rw [Stop.heard?, hfirst, Option.bind_some, if_neg hne]
  have heq : ∀ number, first.teller? = some number → Stop.heard? (c.stops visits) number =
      (Stop.first? ((c.stops visits).filter fun s =>
        first.time < s.time && s.teller? ≠ some number)).map Stop.time := fun number hteller => by
    rw [Stop.heard?, hfirst, Option.bind_some, if_pos hteller]
  -- a stop from elsewhere is later than one that a peer tells, and counts for its connection
  have helsewhere : ∀ number t, first.teller? = some number → c.stop? = some t →
      (⟨t, none⟩ : Stop) ∈ (c.stops visits).filter fun s =>
        first.time < s.time && s.teller? ≠ some number := fun number t hteller ht => by
    have hmem : (⟨t, none⟩ : Stop) ∈ c.stops visits := mem_stops.2 (.inl ⟨rfl, ht⟩)
    have hlt := lt_stop_of_first? hfirst hteller hmem
    exact List.mem_filter.2 ⟨hmem, by simpa using hlt⟩
  refine ⟨hof, fun number time hteller hheard => ?_, fun number time hheard t ht => ?_,
    fun number hheard => ?_⟩
  · rw [heq number hteller] at hheard
    obtain ⟨next, hnext, rfl⟩ := Option.map_eq_some_iff.1 hheard
    have hfilter := (List.mem_filter.1 (Stop.first?_spec hnext).1).2
    rw [Bool.and_eq_true, decide_eq_true_eq] at hfilter
    exact hfilter.1
  · by_cases hteller : first.teller? = some number
    · rw [heq number hteller] at hheard
      obtain ⟨next, hnext, rfl⟩ := Option.map_eq_some_iff.1 hheard
      exact Stop.time_le_of_not_isBefore
        ((Stop.first?_spec hnext).2 _ (helsewhere number t hteller ht))
    · obtain rfl := Option.some.inj ((hof number hteller).symm.trans hheard)
      exact le_stop_of_first? hfirst t ht
  · by_cases hteller : first.teller? = some number
    · rw [heq number hteller, Option.map_eq_none_iff, Stop.first?_eq_none_iff] at hheard
      refine Option.eq_none_iff_forall_ne_some.2 fun t ht => ?_
      exact absurd (hheard ▸ helsewhere number t hteller ht) List.not_mem_nil
    · cases (hof number hteller).symm.trans hheard

/-- The stops that a connection hears of depend on nothing but the first one. -/
theorem Undisturbed.heard?_eq {hear' : Nat → Option Nat} (h : Undisturbed c visits)
    (hfirst : Stop.first? (c.stops visits) = some first) (hfits : Fits c first hear)
    (hfits' : Fits c first hear') (number : Nat) :
    Stop.heard? (c.stops (hearingAll c hear visits)) number =
      Stop.heard? (c.stops (hearingAll c hear' visits)) number := by
  rw [Stop.heard?, Stop.heard?, h.first?_stops hfits hfirst, h.first?_stops hfits' hfirst,
    Option.bind_some, Option.bind_some]
  by_cases hteller : first.teller? = some number
  · rw [if_pos hteller, if_pos hteller, Context.stops, Context.stops, List.filter_append,
      List.filter_append, hearingAll, hearingAll, List.flatMap_map, List.flatMap_map,
      List.filter_flatMap, List.filter_flatMap]
    -- the stops of all other connections are the same, and its own ones do not count
    have hsame : ∀ v ∈ visits, ((v.hearing c.settings (hear v.number)).stops.filter fun s =>
          first.time < s.time && s.teller? ≠ some number) =
        ((v.hearing c.settings (hear' v.number)).stops.filter fun s =>
          first.time < s.time && s.teller? ≠ some number) := by
      intro v hv
      by_cases hnumber : v.number = number
      · have hnil : ∀ heard? : Option Nat, ((v.hearing c.settings heard?).stops.filter fun s =>
            first.time < s.time && s.teller? ≠ some number) = [] := fun heard? => by
          refine List.filter_eq_nil_iff.2 fun stop hstop hcounts => ?_
          have hown : stop.teller? = some number := hnumber ▸ (Visit.mem_stops.1 hstop).1
          rw [Bool.and_eq_true, decide_eq_true_eq, decide_eq_true_eq] at hcounts
          exact hcounts.2 hown
        rw [hnil, hnil]
      · have hne : first.teller? ≠ some v.number := fun heq =>
          hnumber (Option.some.inj (heq.symm.trans hteller))
        rw [hfits.of_ne _ hne, hfits'.of_ne _ hne]
    rw [List.flatMap_def, List.flatMap_def, List.map_congr_left hsame]
  · rw [if_neg hteller, if_neg hteller]

/-! ### The visits of a service -/

/-- What the connections hear while the stops after the first one are not known. -/
def hearsFirst (c : Context) (first : Stop) (number : Nat) : Option Nat :=
  if first.teller? = some number then c.stop? else some first.time

/-- Hearing of the first stop fits it. -/
theorem fits_hearsFirst (hfirst : Stop.first? (c.stops visits) = some first) :
    Fits c first (hearsFirst c first) where
  of_ne number hne := if_neg hne
  lt_of_eq number time hteller hheard := by
    rw [hearsFirst, if_pos hteller] at hheard
    exact lt_stop_of_first? hfirst hteller (mem_stops.2 (.inl ⟨rfl, hheard⟩))
  le_stop number time hheard t ht := by
    rw [hearsFirst] at hheard
    split at hheard
    case isTrue => exact Nat.le_of_eq (Option.some.inj (hheard.symm.trans ht))
    case isFalse =>
      obtain rfl := Option.some.inj hheard
      exact le_stop_of_first? hfirst t ht
  stop?_eq number hheard := by
    rw [hearsFirst] at hheard
    split at hheard
    case isTrue => exact hheard
    case isFalse => cases hheard

theorem Undisturbed.spread_eq (h : Undisturbed c visits) (first : Stop) :
    spread c first visits = hearingAll c
      (Stop.heard? (c.stops (hearingAll c (hearsFirst c first) visits))) visits := by
  have htold : (visits.map fun v =>
        if first.teller? = some v.number then v else v.hearing c.settings (some first.time)) =
      hearingAll c (hearsFirst c first) visits := by
    refine List.map_congr_left fun v hv => ?_
    rw [hearsFirst]
    by_cases hteller : first.teller? = some v.number
    · rw [if_pos hteller, if_pos hteller, h v hv]
    · rw [if_neg hteller, if_neg hteller]
  rw [spread, htold]
  exact List.map_map

/-- **When all connections have heard of the first stop, it is still the first.** -/
theorem Undisturbed.first?_spread (h : Undisturbed c visits)
    (hfirst : Stop.first? (c.stops visits) = some first) :
    Stop.first? (c.stops (spread c first visits)) = some first := by
  have htold := h.first?_stops (fits_hearsFirst hfirst) hfirst
  rw [h.spread_eq first]
  exact h.first?_stops (fits_heard? htold) hfirst

/-- **Each connection hears of the stop that it should hear of.** -/
theorem Undisturbed.hears_spread (h : Undisturbed c visits)
    (hfirst : Stop.first? (c.stops visits) = some first) :
    ∀ v ∈ spread c first visits,
      v.hearing c.settings (Stop.heard? (c.stops (spread c first visits)) v.number) = v := by
  have htold := h.first?_stops (fits_hearsFirst hfirst) hfirst
  have hheard := h.heard?_eq hfirst (fits_heard? htold) (fits_hearsFirst hfirst)
  rw [h.spread_eq first]
  intro v' hv'
  obtain ⟨v, -, rfl⟩ := List.mem_map.1 hv'
  exact congrArg (Visit.hearing c.settings · v) (hheard v.number)

end Service

end HttpEcho
