import ShardStore.Bytes.Word
/-!
An agent's inbox: the frames pushed to it, taken oldest first.

The queue keeps the oldest frames in `front` and the newest, last pushed first, in `back`, so
that pushing and taking are cheap. Its meaning is `toList`, the order in which frames come out:
pushing appends to it and taking removes its head.
-/

namespace ShardStore

/-- Frames waiting to be handled, oldest first. -/
structure Inbox where
  front : List Bytes
  back : List Bytes
deriving Inhabited

namespace Inbox

/-- No frames. -/
def empty : Inbox := ⟨[], []⟩

/-- The frames in the order they come out. -/
def toList (q : Inbox) : List Bytes := q.front ++ q.back.reverse

/-- The number of frames waiting. -/
def size (q : Inbox) : Nat := q.front.length + q.back.length

/-- Push a frame behind the others. -/
def push (q : Inbox) (f : Bytes) : Inbox := ⟨q.front, f :: q.back⟩

/-- Take the oldest frame, if any. -/
def pop? (q : Inbox) : Option (Bytes × Inbox) :=
  match q.front with
  | f :: rest => some (f, ⟨rest, q.back⟩)
  | [] =>
    match q.back.reverse with
    | f :: rest => some (f, ⟨rest, []⟩)
    | [] => none

@[simp] theorem toList_empty : empty.toList = [] := rfl

@[simp] theorem toList_push (q : Inbox) (f : Bytes) : (q.push f).toList = q.toList ++ [f] := by
  simp [push, toList]

theorem size_eq_length (q : Inbox) : q.size = q.toList.length := by
  simp [size, toList]

/-- Taking gives the head of the frame list and leaves its tail. -/
theorem pop?_toList (q : Inbox) :
    (q.pop?).map (fun p => (p.1, p.2.toList)) =
      match q.toList with
      | [] => none
      | f :: rest => some (f, rest) := by
  rcases q with ⟨front, back⟩
  cases front with
  | cons f rest => simp [pop?, toList]
  | nil =>
    simp only [pop?, toList, List.nil_append]
    cases back.reverse <;> simp

end Inbox

end ShardStore
