import LiveStack.Proofs.Code.Segments

/-!
# Looking ahead

A buffer has a character of the text in one of two places: in the stream, or held, once it was
looked at. To what is read this makes no difference. A buffer stands for a reader, to which the
held character is unread, and looking at the next character leaves this reader as it is. So what
is answered, and where the buffer is in the text, depends only on how many characters were asked
for.
-/

namespace LiveStack

namespace Reader

/-- A reader that has taken `count` of the characters of a text, as far as there are so many. -/
def behind (name : String) (chars : List Char) (count : Nat) : Reader :=
  ⟨.behind name (chars.take count), chars.drop count⟩

variable {name : String} {chars : List Char} {count : Nat}

theorem peek?_behind : (behind name chars count).peek? = chars[count]? := by
  rw [behind, peek?, List.head?_drop]

/-- At the end of the text, asking for one more character is answered with nothing, and the place
stays as it is. -/
theorem next?_behind :
    (behind name chars count).next? = (chars[count]?, behind name chars (count + 1)) := by
  rw [behind, behind, next?, ← List.head?_drop]
  cases rest : chars.drop count with
  | nil =>
      have short : chars.length ≤ count := List.drop_eq_nil_iff.1 rest
      rw [List.take_of_length_le short, List.take_of_length_le (Nat.le_succ_of_le short),
        List.drop_eq_nil_of_le (Nat.le_succ_of_le short), List.head?_nil]
  | cons c rest' =>
      have found : chars[count]? = some c := by rw [← List.head?_drop, rest, List.head?_cons]
      have left : chars.drop (count + 1) = rest' := by rw [← List.tail_drop, rest, List.tail_cons]
      rw [List.take_add_one, found, Option.toList_some, ← Location.after_behind, left,
        List.head?_cons]

end Reader

namespace Buffer

/-! ## The reader a buffer stands for -/

/-- The reader that has the held character in front of the stream. -/
def reader (buffer : Buffer) : Reader := ⟨buffer.location, buffer.held.toList ++ buffer.stream⟩

variable {buffer : Buffer} {name : String} {chars : List Char} {count : Nat}

theorem reader_ofString (name text : String) :
    (ofString name text).reader = .behind name text.toList 0 := rfl

theorem fst_peek? : buffer.peek?.1 = buffer.reader.peek? := by
  obtain ⟨location, stream, held⟩ := buffer
  cases held <;> rfl

@[simp] theorem reader_peek? : buffer.peek?.2.reader = buffer.reader := by
  obtain ⟨location, stream, held⟩ := buffer
  cases held with
  | some c => rfl
  | none => cases stream <;> rfl

theorem fst_next? : buffer.next?.1 = buffer.reader.next?.1 := by
  obtain ⟨location, stream, held⟩ := buffer
  cases held with
  | some c => rfl
  | none => cases stream <;> rfl

@[simp] theorem reader_next? : buffer.next?.2.reader = buffer.reader.next?.2 := by
  obtain ⟨location, stream, held⟩ := buffer
  cases held with
  | some c => rfl
  | none => cases stream <;> rfl

/-! ## Calls -/

/-- What can be asked of a buffer. -/
inductive Call where
  | peek
  | next
deriving DecidableEq, Repr

/-- The answer to a call, and the buffer after it. -/
def answer (buffer : Buffer) : Call → Option Char × Buffer
  | .peek => buffer.peek?
  | .next => buffer.next?

/-- The buffer after some calls. -/
def after (buffer : Buffer) (calls : List Call) : Buffer :=
  calls.foldl (fun buffer call => (buffer.answer call).2) buffer

/-- What was answered each time that a character was taken. -/
def taken (buffer : Buffer) : List Call → List (Option Char)
  | [] => []
  | .peek :: calls => buffer.peek?.2.taken calls
  | .next :: calls => buffer.next?.1 :: buffer.next?.2.taken calls

section
variable (placed : buffer.reader = .behind name chars count)
include placed

theorem next?_of_placed : buffer.next?.1 = chars[count]? ∧
    buffer.next?.2.reader = .behind name chars (count + 1) := by
  rw [fst_next?, reader_next?, placed, Reader.next?_behind]
  exact ⟨rfl, rfl⟩

/-- Calls move the reader by as many characters as are taken. -/
theorem reader_after (calls : List Call) :
    (buffer.after calls).reader = .behind name chars (count + calls.count .next) := by
  induction calls generalizing buffer count with
  | nil => exact placed
  | cons call rest ih =>
      cases call with
      | peek =>
          rw [List.count_cons_of_ne (by decide)]
          exact ih (reader_peek?.trans placed)
      | next =>
          rw [List.count_cons_self, Nat.add_comm _ 1, ← Nat.add_assoc]
          exact ih (next?_of_placed placed).2

/-- What is taken is what comes next in the text, whatever is looked at in between. -/
theorem taken_eq (calls : List Call) :
    buffer.taken calls = (List.range' count (calls.count .next)).map (chars[·]?) := by
  induction calls generalizing buffer count with
  | nil => rfl
  | cons call rest ih =>
      cases call with
      | peek =>
          rw [taken, List.count_cons_of_ne (by decide)]
          exact ih (reader_peek?.trans placed)
      | next =>
          obtain ⟨first, moved⟩ := next?_of_placed placed
          rw [taken, first, ih moved, List.count_cons_self, List.range'_succ, List.map_cons]

end

/-- **Looking ahead never disturbs reading.** Characters of a text are asked for and looked at in
any order, and as often as one likes. Those that are taken are the characters of the text, in
order, and then none, however often one more is asked for. What is looked at is what is taken
next, however often it is looked at before that. The place is that of the first character not yet
taken, with the line and the column that the characters taken so far lead to. -/
theorem peeking_never_disturbs_reading (name text : String) (calls : List Call) :
    let count := calls.count .next
    let buffer := (ofString name text).after calls
    (ofString name text).taken calls = (List.range count).map (text.toList[·]?) ∧
    (buffer.peek?.1 = text.toList[count]? ∧
      ∀ more, (buffer.after (.replicate more .peek)).next?.1 = text.toList[count]?) ∧
    buffer.location = .behind name (text.toList.take count) := by
  intro count buffer
  have start := reader_ofString name text
  have here : buffer.reader = .behind name text.toList count := by
    rw [reader_after start calls, Nat.zero_add]
  refine ⟨?_, ⟨?_, fun more => ?_⟩, congrArg Reader.location here⟩
  · rw [taken_eq start calls, List.range_eq_range']
  · rw [fst_peek?, here, Reader.peek?_behind]
  · have still := reader_after here (.replicate more .peek)
    rw [List.count_eq_zero_of_not_mem (by simp), Nat.add_zero] at still
    exact (next?_of_placed still).1

end Buffer

end LiveStack
