import LiveStack.Proofs.Run.Arithmetic
import LiveStack.Proofs.Run.Equality

/-!
# Equality and order

Two integers or truth values are compared by the integers that they read as, and two strings by
their characters. On these `=` and the four words of order answer as one total order. No other two
values without floats have an order, also where they are equal.
-/

namespace LiveStack

open Machine

namespace Value

/-- Two integers or truth values, or two strings. -/
inductive Comparable : Value → Value → Prop
  | numbers {a b : Value} {x y : Int} (first : a.reading? = some x) (second : b.reading? = some y) :
      Comparable a b
  | strings (s t : String) : Comparable (.string s) (.string t)

/-! ## Numbers -/

theorem beq_eq_compare {α : Type} [BEq α] [LawfulBEq α] [Ord α] [Std.LawfulEqOrd α] (x y : α) :
    (x == y) = (compare x y == .eq) := by
  rw [Bool.eq_iff_iff, beq_iff_eq, beq_iff_eq, Std.compare_eq_iff_eq]

/-- The order of two 64-bit integers is that of the integers that they stand for. -/
theorem compare_toInt (x y : Int64) : compare x y = compare x.toInt y.toInt := by
  have words : compare x y = compareOfLessAndEq x y := rfl
  have integers : compare x.toInt y.toInt = compareOfLessAndEq x.toInt y.toInt := rfl
  rw [words, integers]
  simp only [compareOfLessAndEq, Int64.lt_iff_toInt_lt, Int64.toInt_inj]

section
variable {a b : Value} {x y : Int} (first : a.reading? = some x) (second : b.reading? = some y)
include first second

theorem compare?_of_readings : a.compare? b = some (compare x y) := by
  obtain ⟨number, whole, -, rfl⟩ := Operation.reckons_of_reading first
  obtain ⟨number', whole', -, rfl⟩ := Operation.reckons_of_reading second
  simp [compare?, number, number', whole, whole', compare_toInt]

theorem same_of_readings : a.same b = (compare x y == .eq) := by
  obtain ⟨number, whole, -, rfl⟩ := Operation.reckons_of_reading first
  obtain ⟨number', whole', -, rfl⟩ := Operation.reckons_of_reading second
  have atoms : a.same b = a.sameNumber b := by
    cases a with
    | list code => cases first
    | int | bool | float | string => simp [same, sameAtom, number, number']
  rw [atoms, sameNumber_of_whole whole whole', ← compare_toInt, ← beq_eq_compare]
  cases a with
  | int n => rfl
  | bool truth =>
      cases b with
      | int m => rfl
      | bool truth' => cases truth <;> cases truth' <;> rfl
      | float | string | list => cases second
  | float | string | list => cases first

end

/-! ## Comparable values -/

variable {a b c : Value}

namespace Comparable

/-- Comparable values have one order, and it is theirs just if they are equal that they are so. -/
theorem exists_order (comparable : a.Comparable b) :
    ∃ order, a.compare? b = some order ∧ a.same b = (order == .eq) := by
  cases comparable with
  | numbers first second =>
      exact ⟨_, compare?_of_readings first second, same_of_readings first second⟩
  | strings s t =>
      have texts : Value.same (.string s) (.string t) = (s == t) := rfl
      exact ⟨compare s t, rfl, texts.trans (beq_eq_compare s t)⟩

theorem compare?_trans (first : a.Comparable b) (second : b.Comparable c)
    (less : a.compare? b = some .lt) (less' : b.compare? c = some .lt) :
    a.compare? c = some .lt := by
  cases first with
  | numbers read read' =>
      cases second with
      | strings => cases read'
      | numbers again read'' =>
          obtain rfl := Option.some.inj (read'.symm.trans again)
          rw [compare?_of_readings read read', Option.some.injEq] at less
          rw [compare?_of_readings read' read'', Option.some.injEq] at less'
          rw [compare?_of_readings read read'', Std.TransCmp.lt_trans less less']
  | strings s t =>
      cases second with
      | numbers again => cases again
      | strings _ u =>
          have below : compare s t = .lt := Option.some.inj less
          have below' : compare t u = .lt := Option.some.inj less'
          exact congrArg some (Std.TransCmp.lt_trans below below')

end Comparable

/-- Values without floats that are not comparable have no order, and are not both numbers. -/
theorem compare?_of_not_comparable (free : a.FloatFree) (free' : b.FloatFree)
    (other : ¬ a.Comparable b) : a.compare? b = none ∧ (a.isNumeric && b.isNumeric) = false := by
  cases a with
  | float => exact free.elim
  | list code => exact ⟨rfl, rfl⟩
  | string s =>
      cases b with
      | float => exact free'.elim
      | string t => exact absurd (.strings s t) other
      | int | bool | list => exact ⟨rfl, rfl⟩
  | int | bool =>
      cases b with
      | float => exact free'.elim
      | int | bool => exact absurd (.numbers rfl rfl) other
      | string | list => exact ⟨rfl, rfl⟩

end Value

/-! ## The words that compare -/

namespace Operation

/-- The words of order, and the orders for which each of them answers `true`. -/
inductive Ordered : String → (Ordering → Bool) → Prop
  | less : Ordered "<" (· == .lt)
  | greater : Ordered ">" (· == .gt)
  | lessEqual : Ordered "<=" (· != .gt)
  | greaterEqual : Ordered ">=" (· != .lt)

theorem Ordered.exists_of_mem {name : String} (mem : name ∈ ["<", ">", "<=", ">="]) :
    ∃ test, Ordered name test := by
  simp only [List.mem_cons, List.not_mem_nil, or_false] at mem
  rcases mem with rfl | rfl | rfl | rfl
  · exact ⟨_, .less⟩
  · exact ⟨_, .greater⟩
  · exact ⟨_, .lessEqual⟩
  · exact ⟨_, .greaterEqual⟩

/-- A word of order is an operation that tests the order of its two values. -/
theorem Ordered.exists_op {name : String} {test : Ordering → Bool} (word : Ordered name test) :
    ∃ op : Operation, (Prelude.Item.op op).name? = some name ∧
      (∀ a b, op.apply [a, b] = one (ordered a b test)) ∧ (Primitive.operation op).arity = 2 := by
  cases word with
  | less => exact ⟨.less, rfl, fun _ _ => rfl, rfl⟩
  | greater => exact ⟨.greater, rfl, fun _ _ => rfl, rfl⟩
  | lessEqual => exact ⟨.lessEqual, rfl, fun _ _ => rfl, rfl⟩
  | greaterEqual => exact ⟨.greaterEqual, rfl, fun _ _ => rfl, rfl⟩

theorem ordered_of_compare? {a b : Value} {order : Ordering} (has : a.compare? b = some order)
    (test : Ordering → Bool) : ordered a b test = .ok (.bool (test order)) := by
  rw [ordered, has]

theorem ordered_of_none {a b : Value}
    (none : a.compare? b = none ∧ (a.isNumeric && b.isNumeric) = false) (test : Ordering → Bool) :
    ordered a b test =
      .error (.typeMismatch "two numbers or two strings" s!"{a.describe} and {b.describe}") := by
  rw [ordered, none.1, none.2]
  rfl

/-- Values with an order that are less have just this one. -/
theorem compare?_of_less {a b : Value} (comparable : a.Comparable b)
    (less : ordered a b (· == .lt) = .ok (.bool true)) : a.compare? b = some .lt := by
  obtain ⟨order, has, -⟩ := comparable.exists_order
  rw [ordered_of_compare? has, Except.ok.injEq, Value.bool.injEq, beq_iff_eq] at less
  rw [has, less]

end Operation

namespace Machine

open Execution Operation Prelude

variable {limit : Nat} {host : Host} {made : Machine}

/-- A word answers for the same arguments with one outcome. -/
theorem Answers.unique {name : String} {arguments : List Value} {first second : Except Cause Value}
    (answers : made.Answers name arguments first) (answers' : made.Answers name arguments second) :
    first = second := by
  obtain ⟨word, bound, leaves⟩ := answers
  obtain ⟨word', bound', leaves'⟩ := answers'
  obtain rfl := Option.some.inj (bound.symm.trans bound')
  have comes : (new 8 .empty).ComesTo _ _ := leaves none _ (.inl (by decide))
  have comes' : (new 8 .empty).ComesTo _ _ := leaves' none _ (.inl (by decide))
  generalize runCode _ _ = result at comes comes'
  -- Both outcomes are read off the same run, of the word that the name is bound to.
  cases first with
  | error cause =>
      obtain ⟨fault, last, rfl, rfl⟩ := comes.exists_error
      cases second with
      | error cause' =>
          obtain ⟨_, _, same, rfl⟩ := comes'.exists_error
          cases same
          rfl
      | ok value => cases comes'
  | ok value =>
      obtain ⟨location, rfl⟩ := comes.exists_ok
      cases second with
      | error cause' => cases comes'
      | ok value' =>
          obtain ⟨location', same⟩ := comes'.exists_ok
          cases same
          rfl

theorem answers_same (loaded : bootstrapped limit host = .ok made) (a b : Value) :
    made.Answers "=" [a, b] (.ok (.bool (a.same b))) :=
  answers_of_makes loaded (show (Item.op .equal).name? = some "=" from rfl)
    (@Makes.binary 7 .equal (fun a b => .ok (.bool (a.same b))) (fun _ _ => rfl) rfl a b)

theorem answers_ordered (loaded : bootstrapped limit host = .ok made) {name : String}
    {test : Ordering → Bool} (word : Ordered name test) (a b : Value) :
    made.Answers name [a, b] (ordered a b test) := by
  obtain ⟨op, named, gives, arity⟩ := word.exists_op
  exact answers_of_makes loaded named
    (@Makes.binary 7 op (fun a b => ordered a b test) gives arity a b)

/-! ## Lists -/

/-- A list without floats that is on the stack of a machine that comes about. -/
structure PlainList (limit : Nat) (host : Host) where
  code : Code
  machine : Machine
  arises : Arises limit host machine
  mem : .list code ∈ machine.stack
  free : Code.FloatFree code

theorem PlainList.legible (list : PlainList limit host) : Code.Legible list.code :=
  list.arises.legible.stack _ list.mem

/-- A list without floats that a machine reads from a text is one that comes about. -/
theorem exists_plainList {machine : Machine} (arises : Arises limit host machine)
    {name source : String} {place : Location} {items : Code}
    (reads : Code.ofSource machine.bind name source = ([⟨some place, .quote items⟩], []))
    (free : Code.FloatFree items) : ∃ list : PlainList limit host, list.code = items := by
  have run : Machine.runSource name source machine = .ok () { machine with
      diagnostics := machine.diagnostics ++ []
      location := some place
      stack := .list items :: machine.stack } :=
    (endsIn_runSource machine name source).unique (endsIn_of_leads ⟨2, by
      simp [ofSource, Execution.read, reads, Execution.after, step, follow, settle]⟩)
  have after := arises.source name source
  rw [Action.perform, attempt_snd, run] at after
  exact ⟨⟨items, _, after, List.mem_cons_self, free⟩, rfl⟩

/-- Whether two lists that come about are equal, `=` answers by their spelling. -/
theorem answers_spelling (loaded : bootstrapped limit host = .ok made)
    (a b : PlainList limit host) :
    ∃ equal, made.Answers "=" [.list a.code, .list b.code] (.ok (.bool equal)) ∧
      (equal = true ↔ Code.spelling a.code = Code.spelling b.code) := by
  refine ⟨_, answers_same loaded _ _, ?_⟩
  rw [Value.same]
  exact Code.same_iff_spelling _ _ a.legible b.legible a.free b.free

theorem answers_true_iff_spelling (loaded : bootstrapped limit host = .ok made)
    (a b : PlainList limit host) :
    made.Answers "=" [.list a.code, .list b.code] (.ok (.bool true)) ↔
      Code.spelling a.code = Code.spelling b.code := by
  obtain ⟨equal, answers, spelled⟩ := answers_spelling loaded a b
  rw [← spelled]
  constructor
  · intro answers'
    exact Value.bool.inj (Except.ok.inj (answers.unique answers'))
  · rintro rfl
    exact answers

/-- **Equality and order cohere.** Of values without floats, `=` finds each equal to itself, and it
makes no difference in which order it takes two. For two integers or truth values, and for two
strings, just one of `<`, `=` and `>` answers `true`, `<=` and `>=` are what they are made of, and `<`
is transitive. All four stop with a type error for any other two. On the lists that come about, `=`
is an equivalence relation, and answers `true` exactly for two lists that are spelled alike. -/
theorem equality_and_order_cohere (loaded : bootstrapped limit host = .ok made) :
    (∀ a : Value, a.FloatFree → made.Answers "=" [a, a] (.ok (.bool true))) ∧
    (∀ a b : Value, a.FloatFree → b.FloatFree → ∃ equal,
      made.Answers "=" [a, b] (.ok (.bool equal)) ∧
      made.Answers "=" [b, a] (.ok (.bool equal))) ∧
    (∀ a b : Value, a.Comparable b → ∃ less equal greater,
      made.Answers "<" [a, b] (.ok (.bool less)) ∧
      made.Answers "=" [a, b] (.ok (.bool equal)) ∧
      made.Answers ">" [a, b] (.ok (.bool greater)) ∧
      [less, equal, greater].count true = 1 ∧
      made.Answers "<=" [a, b] (.ok (.bool (less || equal))) ∧
      made.Answers ">=" [a, b] (.ok (.bool (greater || equal)))) ∧
    (∀ a b c : Value, a.Comparable b → b.Comparable c →
      made.Answers "<" [a, b] (.ok (.bool true)) → made.Answers "<" [b, c] (.ok (.bool true)) →
      made.Answers "<" [a, c] (.ok (.bool true))) ∧
    (∀ a b : Value, a.FloatFree → b.FloatFree → ¬ a.Comparable b →
      ∀ name ∈ ["<", ">", "<=", ">="], made.Answers name [a, b] (.error
        (.typeMismatch "two numbers or two strings" s!"{a.describe} and {b.describe}"))) ∧
    (Equivalence fun a b : PlainList limit host =>
      made.Answers "=" [.list a.code, .list b.code] (.ok (.bool true))) ∧
    (∀ a b : PlainList limit host, ∃ equal,
      made.Answers "=" [.list a.code, .list b.code] (.ok (.bool equal)) ∧
      (equal = true ↔ Code.spelling a.code = Code.spelling b.code)) := by
  refine ⟨?_, ?_, ?_, ?_, ?_, ?_, answers_spelling loaded⟩
  · intro a free
    have answers := answers_same loaded a a
    rwa [Value.same_refl a free] at answers
  · intro a b free free'
    refine ⟨_, answers_same loaded a b, ?_⟩
    rw [Value.same_comm a b free free']
    exact answers_same loaded b a
  · intro a b comparable
    obtain ⟨order, has, same⟩ := comparable.exists_order
    have answers {name test} (word : Ordered name test) :
        made.Answers name [a, b] (.ok (.bool (test order))) := by
      rw [← ordered_of_compare? has]
      exact answers_ordered loaded word a b
    have equal := answers_same loaded a b
    rw [same] at equal
    refine ⟨_, _, _, answers .less, equal, answers .greater, ?_, ?_, ?_⟩
    · cases order <;> rfl
    · have either : (order != .gt) = (order == .lt || order == .eq) := by cases order <;> rfl
      rw [← either]
      exact answers .lessEqual
    · have either : (order != .lt) = (order == .gt || order == .eq) := by cases order <;> rfl
      rw [← either]
      exact answers .greaterEqual
  · intro a b c first second less less'
    have below := compare?_of_less first ((answers_ordered loaded .less a b).unique less)
    have below' := compare?_of_less second ((answers_ordered loaded .less b c).unique less')
    have answers := answers_ordered loaded .less a c
    rwa [ordered_of_compare? (first.compare?_trans second below below')] at answers
  · intro a b free free' other name mem
    obtain ⟨test, word⟩ := Ordered.exists_of_mem mem
    rw [← ordered_of_none (Value.compare?_of_not_comparable free free' other) test]
    exact answers_ordered loaded word a b
  · refine ⟨fun a => ?_, fun {a b} same => ?_, fun {a b c} same same' => ?_⟩
    · exact (answers_true_iff_spelling loaded a a).2 rfl
    · have spelled := (answers_true_iff_spelling loaded a b).1 same
      exact (answers_true_iff_spelling loaded b a).2 spelled.symm
    · have spelled := (answers_true_iff_spelling loaded a b).1 same
      have spelled' := (answers_true_iff_spelling loaded b c).1 same'
      exact (answers_true_iff_spelling loaded a c).2 (spelled.trans spelled')

/-- The truth value `true` is less than `3`. The number `7` and the string `"7"` have no order. And
of the lists that a new machine reads, `[7[a]]` is not equal to `[07[a]]`, though the numbers
are. -/
theorem equality_and_order_cohere_of_spelled_numbers :
    ∃ (made : Machine) (first second : PlainList 50 .empty),
      bootstrapped 50 .empty = .ok made ∧
      made.Answers "<" [.bool true, .int 3] (.ok (.bool true)) ∧
      made.Answers "<" [.int 7, .string "7"]
        (.error (.typeMismatch "two numbers or two strings" "int 7 and string \"7\"")) ∧
      Code.spelling first.code = [.literal "7", .list [.unknown "a"]] ∧
      Code.spelling second.code = [.literal "07", .list [.unknown "a"]] ∧
      made.Answers "=" [.list first.code, .list second.code] (.ok (.bool false)) := by
  obtain ⟨made, loaded, ready⟩ := exists_bootstrapped (show 0 < 50 by decide) .empty
  let items (text : String) (column : Nat) : Code :=
    [⟨some ⟨"<text>", 1, 2⟩, .literal text (.int 7)⟩, ⟨some ⟨"<text>", 1, column⟩,
      .quote [⟨some ⟨"<text>", 1, column + 1⟩, .unknown "a"⟩]⟩]
  have free (text : String) (column : Nat) : Code.FloatFree (items text column) :=
    ⟨trivial, ⟨trivial, trivial⟩, trivial⟩
  have unknown : made.bind "a" = none := ready.bind_eq_none_of (by decide) (by decide)
  have unread : Literal.read? "a" = none := by decide
  have reads : Code.ofSource made.bind "<text>" "[7[a]]" =
      ([⟨some ⟨"<text>", 1, 1⟩, .quote (items "7" 3)⟩], []) := by
    have lexed : Token.ofSource "<text>" "[7[a]]" =
        ([⟨.opening, ⟨"<text>", 1, 1⟩⟩, ⟨.word "7", ⟨"<text>", 1, 2⟩⟩,
          ⟨.opening, ⟨"<text>", 1, 3⟩⟩, ⟨.word "a", ⟨"<text>", 1, 4⟩⟩,
          ⟨.closing, ⟨"<text>", 1, 5⟩⟩, ⟨.closing, ⟨"<text>", 1, 6⟩⟩], []) := by
      decide
    have seven : made.bind "7" = none := ready.bind_eq_none_of (by decide) (by decide)
    have number : Literal.read? "7" = some (.int 7) := rfl
    rw [Code.ofSource, lexed]
    simp [Code.ofTokens, Code.Parser.step, Code.Parser.close, Code.Parser.finish,
      Element.ofToken, seven, unknown, number, unread, items]
  have reads' : Code.ofSource made.bind "<text>" "[07[a]]" =
      ([⟨some ⟨"<text>", 1, 1⟩, .quote (items "07" 4)⟩], []) := by
    have lexed : Token.ofSource "<text>" "[07[a]]" =
        ([⟨.opening, ⟨"<text>", 1, 1⟩⟩, ⟨.word "07", ⟨"<text>", 1, 2⟩⟩,
          ⟨.opening, ⟨"<text>", 1, 4⟩⟩, ⟨.word "a", ⟨"<text>", 1, 5⟩⟩,
          ⟨.closing, ⟨"<text>", 1, 6⟩⟩, ⟨.closing, ⟨"<text>", 1, 7⟩⟩], []) := by
      decide
    have seven : made.bind "07" = none := ready.bind_eq_none_of (by decide) (by decide)
    have number : Literal.read? "07" = some (.int 7) := rfl
    rw [Code.ofSource, lexed]
    simp [Code.ofTokens, Code.Parser.step, Code.Parser.close, Code.Parser.finish,
      Element.ofToken, seven, unknown, number, unread, items]
  obtain ⟨first, code⟩ := exists_plainList (.bootstrapped loaded) reads (free _ _)
  obtain ⟨second, code'⟩ := exists_plainList (.bootstrapped loaded) reads' (free _ _)
  have spelling : Code.spelling first.code = [.literal "7", .list [.unknown "a"]] := by
    rw [code]
    rfl
  have spelling' : Code.spelling second.code = [.literal "07", .list [.unknown "a"]] := by
    rw [code']
    rfl
  obtain ⟨-, -, -, chain, others, -, lists⟩ := equality_and_order_cohere loaded
  refine ⟨made, first, second, loaded, ?_, ?_, spelling, spelling', ?_⟩
  · exact chain (.bool true) (.int 2) (.int 3) (.numbers rfl rfl) (.numbers rfl rfl)
      (answers_ordered loaded .less _ _) (answers_ordered loaded .less _ _)
  · have other : ¬ Value.Comparable (.int 7) (.string "7") := by
      intro comparable
      cases comparable with
      | numbers _ second => cases second
    exact others (.int 7) (.string "7") trivial trivial other "<" List.mem_cons_self
  · obtain ⟨equal, answers, spelled⟩ := lists first second
    cases equal with
    | false => exact answers
    | true =>
        have same := spelled.1 rfl
        rw [spelling, spelling'] at same
        simp at same

end Machine

end LiveStack
