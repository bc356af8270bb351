import HttpEcho.Bytes

/-!
# Reading octets

A reader is asked for so many octets at most, and gives some of them and the source as it is
afterwards. It gives none when there are no more. `Reader.take` lets only so many octets of a source
be read, and `Reader.readToEnd` collects all that can be read then.
-/

namespace HttpEcho

/-- A way to read from sources: at most so many octets, and the source behind them. -/
def Reader (Source Fault : Type) := Nat → Source → Except Fault (Bytes × Source)

namespace Reader

/-- A source of which only so many octets can be read. -/
structure Limited (Source : Type) where
  source : Source
  left : Nat
  deriving DecidableEq, Repr

variable {Source Fault : Type}

/-- Read as long as the limit allows it. -/
def take (reader : Reader Source Fault) : Reader (Limited Source) Fault := fun n s =>
  if s.left = 0 then .ok ([], s)
  else
    match reader (min n s.left) s.source with
    | .error fault => .error fault
    | .ok (octets, source) => .ok (octets, ⟨source, s.left - octets.length⟩)

/-- Octets that are read count against the limit. -/
theorem left_lt_of_take {reader : Reader Source Fault} {n : Nat} {s s' : Limited Source}
    {b : UInt8} {octets : Bytes} (h : reader.take n s = .ok (b :: octets, s')) :
    s'.left < s.left := by
  unfold take at h
  split at h
  · simp at h
  split at h
  · simp at h
  · simp only [Except.ok.injEq, Prod.mk.injEq] at h
    obtain ⟨rfl, rfl⟩ := h
    simp only [List.length_cons]
    omega

/-- All octets that can be read, up to `room` of them at a time. -/
def readToEnd (reader : Reader Source Fault) (room : Nat) (s : Limited Source) :
    Except Fault Bytes :=
  match _h : reader.take room s with
  | .error fault => .error fault
  | .ok ([], _) => .ok []
  | .ok (b :: octets, rest) => (readToEnd reader room rest).map (b :: octets ++ ·)
termination_by s.left
decreasing_by exact left_lt_of_take _h

end Reader

end HttpEcho
