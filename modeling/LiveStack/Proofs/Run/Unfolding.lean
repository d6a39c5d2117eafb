import LiveStack.Proofs.Run.Expansion
import LiveStack.Proofs.Run.Lexicon

/-!
# What the words of the prelude do

One theorem for each word that moves values about or runs quotations, and none that looks below the
words in its body. A word that runs a quotation does what the quotation does, above the values that
it is given and below those that are set aside meanwhile; so its theorem has what the quotation does
as a hypothesis, and holds for quotations that are known as well as for others.

The least number of calls that a word may open inside each other is the number that is added to
`depth`. A quotation that a word runs has `depth` calls left.
-/

namespace LiveStack

namespace Prelude

/-- Code that reads as the items stands for the expansion. -/
def Does (depth : Nat) (before : List Value) (items : List Item) (expansion : Code)
    (after : List Value) : Prop :=
  ∀ code, Item.Reads items code → Expands depth before code expansion after

namespace Does

variable {depth : Nat} {before between after values : List Value} {item : Item}
  {items : List Item} {expansion expansion' : Code}

/-! ## Items in turn -/

theorem cons (first : Does depth before [item] expansion between)
    (rest : Does depth between items expansion' after) :
    Does depth before (item :: items) (expansion ++ expansion') after := by
  intro code reads
  cases reads with
  | cons place is reads => exact (first _ (.cons place is .nil)).append (rest _ reads)

/-- An item that only changes the values on top adds nothing to the expansion. -/
theorem still (first : Does depth before [item] [] between)
    (rest : Does depth between items expansion after) :
    Does depth before (item :: items) expansion after :=
  first.cons rest

/-- Items behind it that only change the values on top add nothing either. -/
theorem ending (first : Does depth before [item] expansion between)
    (rest : Does depth between items [] after) :
    Does depth before (item :: items) expansion after := by
  have whole := first.cons rest
  rwa [List.append_nil] at whole

/-- A list is pushed, as code that reads as its items. -/
theorem list {inner : List Item}
    (rest : ∀ quotation, Item.Reads inner quotation →
      Does depth (.list quotation :: values) items expansion after) :
    Does depth values (.list inner :: items) expansion after := by
  intro code reads
  cases reads with
  | cons place is reads =>
      cases is with
      | list inner => exact (Expands.data rfl place).append (rest _ inner _ reads)

/-! ## Single items -/

/-- A word of the prelude does what its body does. -/
theorem word {word : Derived} (body : Does depth before word.body expansion after) :
    Does (depth + 1) before [.word word] expansion after := by
  intro code reads
  obtain ⟨place, element, rfl, is⟩ := reads.exists_singleton
  cases is with
  | word inner => exact .secondary (body _ inner) place word.name

theorem operation {op : Operation} (arguments results : List Value)
    (applied : op.apply arguments = .ok results) :
    Does (depth + 1) (arguments.reverse ++ values) [.op op] [] (results.reverse ++ values) := by
  intro code reads
  obtain ⟨place, element, rfl, is⟩ := reads.exists_singleton
  cases is
  exact .operation applied place _

variable {x y z a b c : Value} {p q r : Code}

theorem dup : Does (depth + 1) (x :: values) [.op .dup] [] (x :: x :: values) :=
  operation [x] [x, x] rfl

theorem drop : Does (depth + 1) (x :: values) [.op .drop] [] values :=
  operation [x] [] rfl

theorem choose : Does (depth + 1) (.list q :: .list p :: c :: values) [.op .choose] []
    (.list (if c.truth then p else q) :: values) := by
  have chosen : Operation.choose.apply [c, .list p, .list q] =
      .ok [.list (if c.truth then p else q)] := by
    simp only [Operation.apply, apply_ite]
  exact operation [c, .list p, .list q] _ chosen

theorem prepend : Does (depth + 1) (.list q :: x :: values) [.op .cons] []
    (.list (.made (.ofValue x) :: q) :: values) :=
  operation [x, .list q] [.list (.made (.ofValue x) :: q)] rfl

theorem dip (ran : Expands depth before q expansion after) :
    Does (depth + 1) (.list q :: x :: before) [.dip] expansion (x :: after) := by
  intro code reads
  obtain ⟨place, element, rfl, is⟩ := reads.exists_singleton
  cases is
  exact .dip ran x place _

/-! ## Moving values about -/

theorem swap : Does (depth + 2) (b :: a :: values) [.word .swap] [] (a :: b :: values) :=
  -- The upper value is pushed again by a list that holds nothing else, below the lower one.
  .word <| .list fun _ reads => by
    cases reads
    exact .still prepend (dip (.data (Machine.value?_ofValue b) none))

theorem nip : Does (depth + 3) (b :: a :: values) [.word .nip] [] (b :: values) :=
  .word <| .still swap drop

theorem overTop : Does (depth + 3) (b :: a :: values) [.word .overTop] [] (a :: b :: a :: values) :=
  .word <| .list fun _ reads => .still (dip (dup _ reads)) swap

theorem dup2 : Does (depth + 4) (b :: a :: values) [.word .dup2] []
    (b :: a :: b :: a :: values) :=
  .word <| .still overTop overTop

theorem dupd : Does (depth + 3) (b :: a :: values) [.word .dupd] [] (b :: a :: a :: values) :=
  .word <| .list fun _ reads => dip (dup _ reads)

theorem drop2 : Does (depth + 2) (b :: a :: values) [.word .drop2] [] values :=
  .word <| .still drop drop

theorem drop3 : Does (depth + 2) (c :: b :: a :: values) [.word .drop3] [] values :=
  .word <| .still drop <| .still drop drop

theorem swapd : Does (depth + 4) (c :: b :: a :: values) [.word .swapd] []
    (c :: a :: b :: values) :=
  .word <| .list fun _ reads => dip (swap _ reads)

theorem rot : Does (depth + 5) (c :: b :: a :: values) [.word .rot] [] (a :: c :: b :: values) :=
  .word <| .still swapd swap

theorem rotBack : Does (depth + 6) (c :: b :: a :: values) [.word .rotBack] []
    (b :: a :: c :: values) :=
  .word <| .still rot rot

theorem pick : Does (depth + 5) (c :: b :: a :: values) [.word .pick] []
    (a :: c :: b :: a :: values) :=
  .word <| .list fun _ reads => .still (dip (overTop _ reads)) swap

theorem dup3 : Does (depth + 6) (c :: b :: a :: values) [.word .dup3] []
    (c :: b :: a :: c :: b :: a :: values) :=
  .word <| .still pick <| .still pick pick

theorem nip2 : Does (depth + 4) (c :: b :: a :: values) [.word .nip2] [] (c :: values) :=
  .word <| .list fun _ reads => dip (drop2 _ reads)

/-! ## Running one quotation -/

section
variable (ran : Expands depth values q expansion after)
include ran

theorem apply : Does (depth + 2) (.list q :: values) [.word .apply] expansion after :=
  .word <| .still dup <| .ending (dip ran) drop

theorem dip2 : Does (depth + 3) (.list q :: y :: x :: values) [.word .dip2] expansion
    (y :: x :: after) :=
  .word <| .still swap <| .list fun _ reads => dip (dip ran _ reads)

theorem dip3 : Does (depth + 5) (.list q :: z :: y :: x :: values) [.word .dip3] expansion
    (z :: y :: x :: after) :=
  .word <| .still swap <| .list fun _ reads => dip (dip2 ran _ reads)

theorem dip4 {w : Value} : Does (depth + 7) (.list q :: w :: z :: y :: x :: values) [.word .dip4]
    expansion (w :: z :: y :: x :: after) :=
  .word <| .still swap <| .list fun _ reads => dip (dip3 ran _ reads)

end

theorem branch (ran : Expands depth values (if c.truth then p else q) expansion after) :
    Does (depth + 3) (.list q :: .list p :: c :: values) [.word .branch] expansion after :=
  .word <| .still choose (apply ran)

theorem when (ran : Expands depth values (if c.truth then p else []) expansion after) :
    Does (depth + 4) (.list p :: c :: values) [.word .when] expansion after :=
  .word <| .list fun _ reads => by
    cases reads
    exact branch ran

theorem whenNot (ran : Expands depth values (if c.truth then [] else q) expansion after) :
    Does (depth + 4) (.list q :: c :: values) [.word .unless] expansion after :=
  .word <| .list fun _ reads => by
    cases reads
    exact .still swap (branch ran)

theorem keep (ran : Expands depth (x :: values) q expansion after) :
    Does (depth + 4) (.list q :: x :: values) [.word .keep] expansion (x :: after) :=
  .word <| .still dupd (dip ran.more)

theorem keep2 (ran : Expands depth (y :: x :: values) q expansion after) :
    Does (depth + 6) (.list q :: y :: x :: values) [.word .keep2] expansion (y :: x :: after) :=
  .word <| .list fun _ reads => .still (dip (dup2 _ reads)) (dip2 ran.more)

theorem keep3 (ran : Expands depth (z :: y :: x :: values) q expansion after) :
    Does (depth + 8) (.list q :: z :: y :: x :: values) [.word .keep3] expansion
      (z :: y :: x :: after) :=
  .word <| .list fun _ reads => .still (dip (dup3 _ reads)) (dip3 ran.more)

/-! ## Running several quotations on the same values -/

section
variable {first second : List Value} {expansion'' : Code}

theorem bi (ran : Expands depth (x :: values) p expansion first)
    (ran' : Expands depth (x :: first) q expansion' after) :
    Does (depth + 6) (.list q :: .list p :: x :: values) [.word .bi] (expansion ++ expansion')
      after :=
  .word <| .list fun _ reads => .cons (dip (keep ran _ reads)) (apply ran'.more)

theorem bi2 (ran : Expands depth (y :: x :: values) p expansion first)
    (ran' : Expands depth (y :: x :: first) q expansion' after) :
    Does (depth + 8) (.list q :: .list p :: y :: x :: values) [.word .bi2]
      (expansion ++ expansion') after :=
  .word <| .list fun _ reads => .cons (dip (keep2 ran _ reads)) (apply ran'.more)

theorem bi3 (ran : Expands depth (z :: y :: x :: values) p expansion first)
    (ran' : Expands depth (z :: y :: x :: first) q expansion' after) :
    Does (depth + 10) (.list q :: .list p :: z :: y :: x :: values) [.word .bi3]
      (expansion ++ expansion') after :=
  .word <| .list fun _ reads => .cons (dip (keep3 ran _ reads)) (apply ran'.more)

theorem tri (ran : Expands depth (x :: values) p expansion first)
    (ran' : Expands depth (x :: first) q expansion' second)
    (ran'' : Expands depth (x :: second) r expansion'' after) :
    Does (depth + 8) (.list r :: .list q :: .list p :: x :: values) [.word .tri]
      (expansion ++ (expansion' ++ expansion'')) after :=
  .word <| .list fun _ reads => .cons (dip2 (keep ran _ reads)) <|
    .list fun _ reads' => .cons (dip (keep ran'.more _ reads')) (apply ran''.more)

theorem tri2 (ran : Expands depth (y :: x :: values) p expansion first)
    (ran' : Expands depth (y :: x :: first) q expansion' second)
    (ran'' : Expands depth (y :: x :: second) r expansion'' after) :
    Does (depth + 10) (.list r :: .list q :: .list p :: y :: x :: values) [.word .tri2]
      (expansion ++ (expansion' ++ expansion'')) after :=
  .word <| .list fun _ reads => .cons (dip2 (keep2 ran _ reads)) <|
    .list fun _ reads' => .cons (dip (keep2 ran'.more _ reads')) (apply ran''.more)

theorem tri3 (ran : Expands depth (z :: y :: x :: values) p expansion first)
    (ran' : Expands depth (z :: y :: x :: first) q expansion' second)
    (ran'' : Expands depth (z :: y :: x :: second) r expansion'' after) :
    Does (depth + 12) (.list r :: .list q :: .list p :: z :: y :: x :: values) [.word .tri3]
      (expansion ++ (expansion' ++ expansion'')) after :=
  .word <| .list fun _ reads => .cons (dip2 (keep3 ran _ reads)) <|
    .list fun _ reads' => .cons (dip (keep3 ran'.more _ reads')) (apply ran''.more)

/-! ## Running each quotation on its own values -/

theorem biSpread (ran : Expands depth values p expansion first)
    (ran' : Expands depth (y :: first) q expansion' after) :
    Does (depth + 3) (.list q :: .list p :: y :: values) [.word .biSpread]
      (expansion ++ expansion') after :=
  .word <| .list fun _ reads => .cons (dip (dip ran _ reads)) (apply ran')

theorem bi2Spread (ran : Expands depth values p expansion first)
    (ran' : Expands depth (z :: y :: first) q expansion' after) :
    Does (depth + 5) (.list q :: .list p :: z :: y :: values) [.word .bi2Spread]
      (expansion ++ expansion') after :=
  .word <| .list fun _ reads => .cons (dip (dip2 ran _ reads)) (apply ran'.more)

theorem triSpread (ran : Expands depth values p expansion first)
    (ran' : Expands depth (y :: first) q expansion' second)
    (ran'' : Expands depth (z :: second) r expansion'' after) :
    Does (depth + 7) (.list r :: .list q :: .list p :: z :: y :: values) [.word .triSpread]
      (expansion ++ (expansion' ++ expansion'')) after :=
  .word <| .list fun _ reads => .cons (dip2 (dip2 ran _ reads)) <|
    .list fun _ reads' => .cons (dip (dip ran'.more _ reads')) (apply ran''.more)

theorem tri2Spread {w : Value} (ran : Expands depth values p expansion first)
    (ran' : Expands depth (x :: w :: first) q expansion' second)
    (ran'' : Expands depth (z :: y :: second) r expansion'' after) :
    Does (depth + 11) (.list r :: .list q :: .list p :: z :: y :: x :: w :: values)
      [.word .tri2Spread] (expansion ++ (expansion' ++ expansion'')) after :=
  .word <| .list fun _ reads => .cons (dip2 (dip4 ran _ reads)) <|
    .list fun _ reads' => .cons (dip (dip2 ran'.more _ reads')) (apply ran''.more)

/-! ## Running one quotation several times -/

theorem biApply (ran : Expands depth values q expansion first)
    (ran' : Expands depth (y :: first) q expansion' after) :
    Does (depth + 4) (.list q :: y :: values) [.word .biApply] (expansion ++ expansion') after :=
  .word <| .still dup <| .cons (dip2 ran) (apply ran'.more)

theorem bi2Apply (ran : Expands depth values q expansion first)
    (ran' : Expands depth (z :: y :: first) q expansion' after) :
    Does (depth + 6) (.list q :: z :: y :: values) [.word .bi2Apply] (expansion ++ expansion')
      after :=
  .word <| .still dup <| .cons (dip3 ran) (apply ran'.more)

theorem triApply (ran : Expands depth values q expansion first)
    (ran' : Expands depth (y :: first) q expansion' second)
    (ran'' : Expands depth (z :: second) q expansion'' after) :
    Does (depth + 6) (.list q :: z :: y :: values) [.word .triApply]
      (expansion ++ (expansion' ++ expansion'')) after :=
  .word <| .still dup <| .cons (dip3 ran) <| .still dup <| .cons (dip2 ran'.more)
    (apply ran''.more)

/-- The quotation is run twice only: three values are set aside, and then given to it at once. -/
theorem tri2Apply (ran : Expands depth values q expansion first)
    (ran' : Expands depth (z :: y :: x :: first) q expansion' after) :
    Does (depth + 8) (.list q :: z :: y :: x :: values) [.word .tri2Apply]
      (expansion ++ expansion') after :=
  .word <| .still dup <| .cons (dip4 ran) (apply ran'.more)

/-- What is behind `bi@` finds values that nothing is known about. -/
theorem joined {word : Derived} (op : Operation) (body : word.body = [.word .biApply, .op op])
    (ran : Expands depth values q expansion first)
    (ran' : Expands depth (y :: first) q expansion' []) :
    Does (depth + 5) (.list q :: y :: values) [.word word]
      (expansion ++ expansion' ++ [.made (.word ⟨op.info.name, .primitive (.operation op)⟩)])
      [] := by
  refine .word ?_
  rw [body]
  refine .cons (biApply ran ran') ?_
  intro code reads
  obtain ⟨place, element, rfl, is⟩ := reads.exists_singleton
  cases is
  exact .word _ place none

end

end Does

end Prelude

end LiveStack
