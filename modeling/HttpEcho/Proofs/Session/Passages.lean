import HttpEcho.Proofs.Session.Changes

/-!
# Parts of a session

A part of a session, such as the reading of a request head, comes to its end and gives a value, or
the session does not get beyond it: it is over, or it waits for ever. `Session.Passage` says which.
Parts follow one another (`Passage.bind`), and a loop repeats a part (`Session.Rounds`) with a
measure that falls whenever it goes round.

What holds of a part is stated with `Passage.Meets`: one condition for its end, one for a session
that does not get beyond it. There is one rule for parts that follow one another
(`Passage.Meets.bind`) and one for loops, along an invariant (`Rounds.meets_run`).
-/

namespace HttpEcho

namespace Session

open Connection

variable {α β σ : Type}

/-! ### Halts -/

/-- How a session does not get beyond a part of it. -/
inductive Halt where
  /-- It is over. -/
  | ended (run : Run)
  /-- It waits for ever: what happened until then, the phase in which it waits, and the peer. -/
  | blocked (trace : Trace) (phase : Phase) (peer : Peer)
  deriving DecidableEq, Repr

namespace Halt

/-- The run of a session that halts. -/
def run : Halt → Run
  | .ended run => run
  | .blocked trace phase peer =>
    { trace := trace ++ (peer.read (patience phase)).trace
      ending := none
      time := (peer.read (patience phase)).peer.now }

/-- Put a trace in front. -/
def after (h : Halt) (trace : Trace) : Halt :=
  match h with
  | .ended run => .ended (run.after trace)
  | .blocked trace' phase peer => .blocked (trace ++ trace') phase peer

theorem after_after (h : Halt) (trace trace' : Trace) :
    (h.after trace').after trace = h.after (trace ++ trace') := by
  cases h with
  | ended run => exact congrArg Halt.ended (Run.after_after run trace trace')
  | blocked => exact congrArg (Halt.blocked · _ _) (List.append_assoc _ _ _).symm

theorem run_after (h : Halt) (trace : Trace) : (h.after trace).run = h.run.after trace := by
  cases h with
  | ended run => rfl
  | blocked trace' phase peer => exact congrArg (Run.mk · _ _) (List.append_assoc _ _ _)

/-- A condition on halts that does not look at what happened before. -/
def Keeps (final : Halt → Prop) : Prop := ∀ h trace, final h → final (h.after trace)

/-- The session is over by a time. -/
def OverBy (time : Nat) (h : Halt) : Prop :=
  ∃ run, h = .ended run ∧ run.ending.isSome ∧ run.time ≤ time

theorem OverBy.mono {h : Halt} {time time' : Nat} (hover : h.OverBy time) (hle : time ≤ time') :
    h.OverBy time' := by
  obtain ⟨run, rfl, hending, htime⟩ := hover
  exact ⟨run, rfl, hending, Nat.le_trans htime hle⟩

theorem keeps_overBy (time : Nat) : Keeps (OverBy time) := by
  rintro h trace ⟨run, rfl, hending, htime⟩
  exact ⟨run.after trace, rfl, hending, htime⟩

theorem keeps_true : Keeps fun _ => True := fun _ _ _ => trivial

end Halt

/-! ### Passages -/

/-- What comes of a part of a session. -/
inductive Passage (α : Type) where
  /-- It comes to its end: what happened, its value, and the sends and the peer after it. -/
  | on (trace : Trace) (value : α) (sends : Nat) (peer : Peer)
  /-- The session does not get beyond it. -/
  | halt (halt : Halt)

namespace Passage

variable {p : Passage α} {post : α → Peer → Prop} {final : Halt → Prop}

/-- Put a trace in front. -/
def after (p : Passage α) (trace : Trace) : Passage α :=
  match p with
  | .on trace' value sends peer => .on (trace ++ trace') value sends peer
  | .halt h => .halt (h.after trace)

/-- One part after the other. -/
def bind (p : Passage α) (next : α → Nat → Peer → Passage β) : Passage β :=
  match p with
  | .on trace value sends peer => (next value sends peer).after trace
  | .halt h => .halt h

/-- Change the value. -/
def map (f : α → β) (p : Passage α) : Passage β :=
  p.bind fun value sends peer => .on [] (f value) sends peer

/-- The run of a session, by what runs after a part of it. -/
def toRun (p : Passage α) (next : α → Nat → Peer → Run) : Run :=
  match p with
  | .on trace value sends peer => (next value sends peer).after trace
  | .halt h => h.run

/-- How the session halts that has a part without an end. -/
def halted : Passage Empty → Halt
  | .halt h => h

theorem after_after (p : Passage α) (trace trace' : Trace) :
    (p.after trace').after trace = p.after (trace ++ trace') := by
  cases p with
  | on => exact congrArg (Passage.on · _ _ _) (List.append_assoc _ _ _).symm
  | halt h => exact congrArg Passage.halt (h.after_after trace trace')

theorem after_nil (p : Passage α) : p.after [] = p := by
  rcases p with _ | _ | _ <;> rfl

theorem bind_after (p : Passage α) (trace : Trace) (next : α → Nat → Peer → Passage β) :
    (p.after trace).bind next = (p.bind next).after trace := by
  cases p with
  | on trace' value sends peer => exact (after_after _ trace trace').symm
  | halt h => rfl

theorem toRun_after (p : Passage α) (trace : Trace) (next : α → Nat → Peer → Run) :
    (p.after trace).toRun next = (p.toRun next).after trace := by
  cases p with
  | on trace' value sends peer => exact (Run.after_after _ trace trace').symm
  | halt h => exact h.run_after trace

/-- A passage that goes on with another one is completed as the other one is. -/
theorem toRun_bind (p : Passage α) (next : α → Nat → Peer → Passage β)
    (last : β → Nat → Peer → Run) :
    (p.bind next).toRun last = p.toRun fun value sends peer =>
      (next value sends peer).toRun last := by
  cases p with
  | on trace value sends peer => exact toRun_after _ trace last
  | halt h => rfl

theorem toRun_map (f : α → β) (p : Passage α) (last : β → Nat → Peer → Run) :
    (p.map f).toRun last = p.toRun fun value => last (f value) :=
  toRun_bind p _ last

/-- A passage that never goes on is a run. -/
theorem run_halted (p : Passage Empty) (next : Empty → Nat → Peer → Run) :
    p.halted.run = p.toRun next := by
  cases p with
  | on trace value => cases value
  | halt h => rfl

/-! ### Conditions -/

/-- A part that comes to its end gives a value and leaves a peer with `post`, and a session that
does not get beyond it halts with `final`. -/
def Meets (p : Passage α) (post : α → Peer → Prop) (final : Halt → Prop) : Prop :=
  match p with
  | .on _ value _ peer => post value peer
  | .halt h => final h

theorem Meets.mono {post' : α → Peer → Prop} {final' : Halt → Prop} (h : p.Meets post final)
    (hpost : ∀ value peer, post value peer → post' value peer) (hfinal : ∀ h, final h → final' h) :
    p.Meets post' final' := by
  cases p with
  | on trace value sends peer => exact hpost value peer h
  | halt halt => exact hfinal halt h

theorem Meets.imp {post' : α → Peer → Prop} (h : p.Meets post final)
    (hpost : ∀ value peer, post value peer → post' value peer) : p.Meets post' final :=
  h.mono hpost fun _ hfinal => hfinal

/-- A passage meets two conditions if it meets each of them. -/
theorem Meets.and {post' : α → Peer → Prop} (h : p.Meets post final)
    (h' : p.Meets post' fun _ => True) :
    p.Meets (fun value peer => post value peer ∧ post' value peer) final := by
  cases p with
  | on trace value sends peer => exact ⟨h, h'⟩
  | halt halt => exact h

/-- What runs after a part matters only for what the part leaves. -/
theorem Meets.toRun_congr {next next' : α → Nat → Peer → Run} (h : p.Meets
    (fun value peer => ∀ sends, next value sends peer = next' value sends peer) final) :
    p.toRun next = p.toRun next' := by
  cases p with
  | on trace value sends peer => exact congrArg (Run.after · trace) (h sends)
  | halt halt => rfl

theorem Meets.after (h : p.Meets post final) (hfinal : Halt.Keeps final) (trace : Trace) :
    (p.after trace).Meets post final := by
  cases p with
  | on trace' value sends peer => exact h
  | halt halt => exact hfinal halt trace h

/-- **Parts that follow one another**: what the first one leaves is what the second one begins
with. -/
theorem Meets.bind {next : α → Nat → Peer → Passage β} {post' : β → Peer → Prop}
    (h : p.Meets post final) (hfinal : Halt.Keeps final)
    (hnext : ∀ value sends peer, post value peer → (next value sends peer).Meets post' final) :
    (p.bind next).Meets post' final := by
  cases p with
  | on trace value sends peer => exact (hnext value sends peer h).after hfinal trace
  | halt halt => exact h

/-- What is true of the values of a passage is true of their images. -/
theorem Meets.map {f : α → β} {post' : β → Peer → Prop}
    (h : p.Meets (fun value => post' (f value)) final) (hfinal : Halt.Keeps final) :
    (p.map f).Meets post' final :=
  h.bind hfinal fun _ _ _ hvalue => hvalue

/-- A passage that never goes on meets the condition for halting. -/
theorem Meets.halted {p : Passage Empty} {post : Empty → Peer → Prop} (h : p.Meets post final) :
    final p.halted := by
  cases p with
  | on trace value => cases value
  | halt halt => exact h

end Passage

/-! ### Loops -/

/-- A loop: a turn of it gives the state in which it goes round again, or the value that it is left
with. -/
structure Rounds (σ α : Type) where
  turn : σ → Nat → Peer → Passage (σ ⊕ α)
  size : σ → Peer → Nat
  /-- The measure falls whenever the loop goes round. -/
  falls : ∀ state sends peer, (turn state sends peer).Meets
    (fun next peer' => ∀ state', next = .inl state' → size state' peer' < size state peer)
    fun _ => True

namespace Rounds

/-- Go round until the loop is left. -/
def run (l : Rounds σ α) (state : σ) (sends : Nat) (peer : Peer) : Passage α :=
  match _h : l.turn state sends peer with
  | .on trace (.inl state') sends' peer' => (l.run state' sends' peer').after trace
  | .on trace (.inr value) sends' peer' => .on trace value sends' peer'
  | .halt h => .halt h
termination_by l.size state peer
decreasing_by
  have hfalls := l.falls state sends peer
  rw [_h] at hfalls
  exact hfalls state' rfl

variable (l : Rounds σ α)

/-- The run of a session that goes through a loop is known from what one turn of the loop does. -/
theorem toRun_run (again : σ → Nat → Peer → Run) {next : α → Nat → Peer → Run}
    (hturn : ∀ state sends peer,
      (l.turn state sends peer).toRun (Sum.elim again next) = again state sends peer)
    (state : σ) (sends : Nat) (peer : Peer) :
    (l.run state sends peer).toRun next = again state sends peer := by
  rw [← hturn]
  fun_induction l.run state sends peer with
  | case1 state sends peer trace state' sends' peer' h ih =>
    rw [Passage.toRun_after, ih, hturn, h]
    rfl
  | case2 state sends peer trace value sends' peer' h => rw [h]; rfl
  | case3 state sends peer halt h => rw [h]; rfl

/-- **Along an invariant**: if each turn of a loop keeps it, and a turn that leaves the loop has the
condition, then the loop has the condition. -/
theorem meets_run (inv : σ → Peer → Prop) {post : α → Peer → Prop} {final : Halt → Prop}
    (hfinal : Halt.Keeps final)
    (hturn : ∀ state sends peer, inv state peer →
      (l.turn state sends peer).Meets (Sum.elim inv post) final)
    {state : σ} (sends : Nat) {peer : Peer} (hinv : inv state peer) :
    (l.run state sends peer).Meets post final := by
  fun_induction l.run state sends peer with
  | case1 state sends peer trace state' sends' peer' h ih =>
    have hmeets := hturn state sends peer hinv
    rw [h] at hmeets
    exact (ih hmeets).after hfinal trace
  | case2 state sends peer trace value sends' peer' h =>
    have hmeets := hturn state sends peer hinv
    rw [h] at hmeets
    exact hmeets
  | case3 state sends peer halt h =>
    have hmeets := hturn state sends peer hinv
    rw [h] at hmeets
    exact hmeets

end Rounds

end Session

end HttpEcho
