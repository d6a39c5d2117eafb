import LiveStack.Proofs.Run.Prelude
import LiveStack.Proofs.Run.Unfolding

/-!
# The words that run quotations

Each combinator of the prelude, with the values and the quotations that it takes in front of it, is
code that stands for other code, in which the quotations are run directly. What the quotations do
makes no difference: they may use up or change what is on the stack below, define words, or fail.

The one quotation of `bi@`, `2bi@` and `tri@` does what the same quotation does when it is given to
`bi*`, `2bi*` and `tri*` twice or three times. This is not so for `2tri@`, which runs its quotation
twice only.
-/

namespace LiveStack

open Execution Machine

/-- Some code may be run instead of its expansion. If it is not stopped for want of room, both
succeed, or fail for the same cause, on machines that are the same but for places, open calls and
the limit. If the expansion is not stopped, then so do the code, under a limit that leaves room for
so many calls more, and the expansion. -/
structure StandsFor (spare : Nat) (code expansion : Code) : Prop where
  unfolds : ∀ machine : Machine, ¬ Overruns (Machine.runCode code machine) →
    Matching (Machine.runCode code machine) (Machine.runCode expansion machine)
  folds : ∀ (machine : Machine) (limit : Nat), machine.limit + spare ≤ limit →
    machine.calls.length + spare ≤ limit → ¬ Overruns (Machine.runCode expansion machine) →
    Matching (Machine.runCode code (machine.allowing limit)) (Machine.runCode expansion machine)

/-- Code that leaves nothing above its expansion stands for it, behind the values that it takes. -/
theorem Expands.standsFor {depth : Nat} {values : List Value} {code expansion : Code}
    (expands : Expands depth values.reverse code expansion []) :
    StandsFor depth (pushing values ++ code) expansion := by
  constructor
  · intro machine fits
    rw [runCode_pushing_append] at fits ⊢
    have whole := expands machine machine (.refl machine)
      (.forth (Nat.le_refl _) fits)
    rwa [crowned_nil] at whole
  · intro machine limit more room fits
    rw [runCode_pushing_append]
    have same : (machine.allowing limit).Matches machine := ⟨rfl, rfl, rfl, rfl, rfl⟩
    have spares : Spares depth (machine.allowing limit) machine := by
      refine ⟨?_, room⟩
      show machine.limit + machine.calls.length + depth ≤ limit + machine.calls.length
      omega
    have whole := expands _ _ same (.back spares fits)
    rwa [crowned_nil] at whole

theorem Matching.trans {result result' result'' : EStateM.Result Fault Machine Unit}
    (same : Matching result result') (same' : Matching result' result'') :
    Matching result result'' := by
  cases same with
  | ok same =>
      cases same' with
      | ok same' => exact .ok (same.trans same')
  | error causes same =>
      cases same' with
      | error causes' same' => exact .error (causes'.trans causes) (same.trans same')

theorem Matching.overruns {result result' : EStateM.Result Fault Machine Unit}
    (same : Matching result result') (overruns : Overruns result') : Overruns result := by
  obtain ⟨fault, last, rfl, depth⟩ := overruns
  cases same with
  | error causes same => exact ⟨_, _, rfl, causes ▸ depth⟩

/-- Each of two pieces of code may be run instead of the other: if the one is not stopped for want
of room, then both succeed or fail for the same cause, on machines that are the same but for places,
open calls and the limit, where there is room for so many calls more for the other. -/
structure Interchangeable (spare : Nat) (code code' : Code) : Prop where
  right : ∀ (machine : Machine) (limit : Nat), machine.limit + spare ≤ limit →
    machine.calls.length + spare ≤ limit → ¬ Overruns (Machine.runCode code machine) →
    Matching (Machine.runCode code machine) (Machine.runCode code' (machine.allowing limit))
  left : ∀ (machine : Machine) (limit : Nat), machine.limit + spare ≤ limit →
    machine.calls.length + spare ≤ limit → ¬ Overruns (Machine.runCode code' machine) →
    Matching (Machine.runCode code' machine) (Machine.runCode code (machine.allowing limit))

/-- What stands for the same code is interchangeable. -/
theorem StandsFor.interchangeable {spare : Nat} {code code' expansion : Code}
    (stands : StandsFor spare code expansion) (stands' : StandsFor spare code' expansion) :
    Interchangeable spare code code' := by
  have instead {code code' : Code} (stands : StandsFor spare code expansion)
      (stands' : StandsFor spare code' expansion) (machine : Machine) (limit : Nat)
      (more : machine.limit + spare ≤ limit) (room : machine.calls.length + spare ≤ limit)
      (fits : ¬ Overruns (Machine.runCode code machine)) :
      Matching (Machine.runCode code machine) (Machine.runCode code' (machine.allowing limit)) := by
    have unfolded := stands.unfolds machine fits
    exact unfolded.trans (stands'.folds machine limit more room (mt unfolded.overruns fits)).symm
  exact ⟨instead stands stands', instead stands' stands⟩

theorem Matching.exists_ok {result : EStateM.Result Fault Machine Unit} {last : Machine}
    (same : Matching result (.ok () last)) :
    ∃ last', result = .ok () last' ∧ last'.Matches last := by
  cases same with
  | ok same => exact ⟨_, rfl, same⟩

namespace Prelude

/-- The words that run quotations: their names, the values they take, the topmost last, and what
they do with these, the quotations being run directly. -/
inductive Expansion : String → List Value → Code → Prop
  | apply (q : Code) : Expansion "apply" [.list q] q
  | branch (c : Value) (p q : Code) :
      Expansion "if" [c, .list p, .list q] (if c.truth then p else q)
  | when (c : Value) (p : Code) : Expansion "when" [c, .list p] (if c.truth then p else [])
  | whenNot (c : Value) (q : Code) : Expansion "unless" [c, .list q] (if c.truth then [] else q)
  | dip (x : Value) (q : Code) : Expansion "dip" [x, .list q] (q ++ pushing [x])
  | dip2 (x y : Value) (q : Code) : Expansion "2dip" [x, y, .list q] (q ++ pushing [x, y])
  | dip3 (x y z : Value) (q : Code) :
      Expansion "3dip" [x, y, z, .list q] (q ++ pushing [x, y, z])
  | dip4 (x y z w : Value) (q : Code) :
      Expansion "4dip" [x, y, z, w, .list q] (q ++ pushing [x, y, z, w])
  | keep (x : Value) (q : Code) : Expansion "keep" [x, .list q] (pushing [x] ++ q ++ pushing [x])
  | keep2 (x y : Value) (q : Code) :
      Expansion "2keep" [x, y, .list q] (pushing [x, y] ++ q ++ pushing [x, y])
  | keep3 (x y z : Value) (q : Code) :
      Expansion "3keep" [x, y, z, .list q] (pushing [x, y, z] ++ q ++ pushing [x, y, z])
  | bi (x : Value) (p q : Code) :
      Expansion "bi" [x, .list p, .list q] (pushing [x] ++ p ++ (pushing [x] ++ q))
  | bi2 (x y : Value) (p q : Code) :
      Expansion "2bi" [x, y, .list p, .list q] (pushing [x, y] ++ p ++ (pushing [x, y] ++ q))
  | bi3 (x y z : Value) (p q : Code) :
      Expansion "3bi" [x, y, z, .list p, .list q]
        (pushing [x, y, z] ++ p ++ (pushing [x, y, z] ++ q))
  | tri (x : Value) (p q r : Code) :
      Expansion "tri" [x, .list p, .list q, .list r]
        (pushing [x] ++ p ++ (pushing [x] ++ q ++ (pushing [x] ++ r)))
  | tri2 (x y : Value) (p q r : Code) :
      Expansion "2tri" [x, y, .list p, .list q, .list r]
        (pushing [x, y] ++ p ++ (pushing [x, y] ++ q ++ (pushing [x, y] ++ r)))
  | tri3 (x y z : Value) (p q r : Code) :
      Expansion "3tri" [x, y, z, .list p, .list q, .list r]
        (pushing [x, y, z] ++ p ++ (pushing [x, y, z] ++ q ++ (pushing [x, y, z] ++ r)))
  | biSpread (x y : Value) (p q : Code) :
      Expansion "bi*" [x, y, .list p, .list q] (pushing [x] ++ p ++ (pushing [y] ++ q))
  | bi2Spread (x y z w : Value) (p q : Code) :
      Expansion "2bi*" [x, y, z, w, .list p, .list q]
        (pushing [x, y] ++ p ++ (pushing [z, w] ++ q))
  | triSpread (x y z : Value) (p q r : Code) :
      Expansion "tri*" [x, y, z, .list p, .list q, .list r]
        (pushing [x] ++ p ++ (pushing [y] ++ q ++ (pushing [z] ++ r)))
  | tri2Spread (u v w x y z : Value) (p q r : Code) :
      Expansion "2tri*" [u, v, w, x, y, z, .list p, .list q, .list r]
        (pushing [u, v] ++ p ++ (pushing [w, x] ++ q ++ (pushing [y, z] ++ r)))
  | biApply (x y : Value) (q : Code) :
      Expansion "bi@" [x, y, .list q] (pushing [x] ++ q ++ (pushing [y] ++ q))
  | bi2Apply (x y z w : Value) (q : Code) :
      Expansion "2bi@" [x, y, z, w, .list q] (pushing [x, y] ++ q ++ (pushing [z, w] ++ q))
  | triApply (x y z : Value) (q : Code) :
      Expansion "tri@" [x, y, z, .list q]
        (pushing [x] ++ q ++ (pushing [y] ++ q ++ (pushing [z] ++ q)))
  | both (x y : Value) (q : Code) :
      Expansion "both?" [x, y, .list q] (pushing [x] ++ q ++ (pushing [y] ++ q) ++
        [.made (.word ⟨"and", .primitive (.operation .and)⟩)])
  | either (x y : Value) (q : Code) :
      Expansion "either?" [x, y, .list q] (pushing [x] ++ q ++ (pushing [y] ++ q) ++
        [.made (.word ⟨"or", .primitive (.operation .or)⟩)])

/-- What is left on top may as well be pushed by the expansion. -/
theorem Does.flush {depth : Nat} {before after : List Value} {items : List Item} {expansion : Code}
    (does : Does depth before items expansion after) :
    Does depth before items (expansion ++ pushing after.reverse) [] :=
  fun code reads => (does code reads).flush

open Expands in
/-- Twelve calls inside each other are enough for what these words do besides their quotations. -/
theorem Expansion.does {name : String} {arguments : List Value} {expansion : Code}
    (row : Expansion name arguments expansion) :
    ∃ item : Item, item.name? = some name ∧
      Does 12 arguments.reverse [item] expansion [] := by
  cases row with
  | apply q => exact ⟨.word .apply, rfl, .apply (itself _)⟩
  | branch c p q => exact ⟨.word .branch, rfl, .branch (itself _)⟩
  | when c p => exact ⟨.word .when, rfl, .when (itself _)⟩
  | whenNot c q => exact ⟨.word .unless, rfl, .whenNot (itself _)⟩
  | dip x q => exact ⟨.dip, rfl, (Does.dip (itself q)).flush⟩
  | dip2 x y q => exact ⟨.word .dip2, rfl, (Does.dip2 (itself q)).flush⟩
  | dip3 x y z q => exact ⟨.word .dip3, rfl, (Does.dip3 (itself q)).flush⟩
  | dip4 x y z w q => exact ⟨.word .dip4, rfl, (Does.dip4 (itself q)).flush⟩
  | keep x q => exact ⟨.word .keep, rfl, (Does.keep (itself q)).flush⟩
  | keep2 x y q => exact ⟨.word .keep2, rfl, (Does.keep2 (itself q)).flush⟩
  | keep3 x y z q => exact ⟨.word .keep3, rfl, (Does.keep3 (itself q)).flush⟩
  | bi x p q => exact ⟨.word .bi, rfl, .bi (itself p) (itself q)⟩
  | bi2 x y p q => exact ⟨.word .bi2, rfl, .bi2 (itself p) (itself q)⟩
  | bi3 x y z p q => exact ⟨.word .bi3, rfl, .bi3 (itself p) (itself q)⟩
  | tri x p q r => exact ⟨.word .tri, rfl, .tri (itself p) (itself q) (itself r)⟩
  | tri2 x y p q r => exact ⟨.word .tri2, rfl, .tri2 (itself p) (itself q) (itself r)⟩
  | tri3 x y z p q r => exact ⟨.word .tri3, rfl, .tri3 (itself p) (itself q) (itself r)⟩
  | biSpread x y p q => exact ⟨.word .biSpread, rfl, .biSpread (itself p) (itself q)⟩
  | bi2Spread x y z w p q => exact ⟨.word .bi2Spread, rfl, .bi2Spread (itself p) (itself q)⟩
  | triSpread x y z p q r =>
      exact ⟨.word .triSpread, rfl, .triSpread (itself p) (itself q) (itself r)⟩
  | tri2Spread u v w x y z p q r =>
      exact ⟨.word .tri2Spread, rfl, .tri2Spread (itself p) (itself q) (itself r)⟩
  | biApply x y q => exact ⟨.word .biApply, rfl, .biApply (itself q) (itself q)⟩
  | bi2Apply x y z w q => exact ⟨.word .bi2Apply, rfl, .bi2Apply (itself q) (itself q)⟩
  | triApply x y z q =>
      exact ⟨.word .triApply, rfl, .triApply (itself q) (itself q) (itself q)⟩
  | both x y q => exact ⟨.word .both, rfl, .joined .and rfl (itself q) (itself q)⟩
  | either x y q => exact ⟨.word .either, rfl, .joined .or rfl (itself q) (itself q)⟩

end Prelude

namespace Machine

open Prelude

theorem exists_standsFor {limit : Nat} {host : Host} {made : Machine}
    (loaded : bootstrapped limit host = .ok made) {item : Item} {name : String}
    (named : item.name? = some name) {depth : Nat} {arguments : List Value} {expansion : Code}
    (does : Does depth arguments.reverse [item] expansion []) :
    ∃ word, made.bind name = some word ∧ ∀ place : Option Location,
      StandsFor depth (pushing arguments ++ [⟨place, .word word⟩]) expansion := by
  obtain ⟨word, bound, is⟩ := exists_bound loaded named
  exact ⟨word, bound, fun place => (does _ (.cons place is .nil)).standsFor⟩

/-- The words of the prelude that run quotations mean what their names say. With its arguments in
front of it, each stands for its expansion, in which the quotations are run directly: on every
machine, whatever is defined there and whatever is on the stack below, it succeeds where the
expansion does, with the same stack, and fails for the same cause where that fails. It takes room
for twelve calls at most besides what the expansion takes. The word is the one that the name means in
a new machine, and later on until the name is defined anew (`Becomes.bind_eq`). -/
theorem combinators_stand_for_their_expansions {limit : Nat} {host : Host} {made : Machine}
    (loaded : bootstrapped limit host = .ok made) {name : String} {arguments : List Value}
    {expansion : Code} (row : Expansion name arguments expansion) :
    ∃ word, made.bind name = some word ∧ ∀ place : Option Location,
      StandsFor 12 (pushing arguments ++ [⟨place, .word word⟩]) expansion := by
  obtain ⟨item, named, does⟩ := row.does
  exact exists_standsFor loaded named does

/-- The value `true` is kept while `not` is run on it, on a machine that knows no words. -/
theorem combinators_stand_for_their_expansions_of_keep :
    let not : Code := [.made (.word ⟨"not", .primitive (.operation .not)⟩)]
    ∃ made word last, bootstrapped 50 .empty = .ok made ∧ made.bind "keep" = some word ∧
      runCode (pushing [.bool true, .list not] ++ [⟨none, .word word⟩]) (new 14 .empty) =
        .ok () last ∧ last.stack = [.bool true, .bool false] := by
  intro not
  obtain ⟨made, loaded, -⟩ := exists_bootstrapped (show 0 < 50 by decide) .empty
  obtain ⟨word, bound, expands⟩ :=
    combinators_stand_for_their_expansions loaded (.keep (.bool true) not)
  obtain ⟨last, ran, stack⟩ : ∃ last,
      runCode (pushing [.bool true] ++ not ++ pushing [.bool true]) (new 2 .empty) = .ok () last ∧
        last.stack = [.bool true, .bool false] :=
    ⟨_, (endsIn_runCode (new 2 .empty) _).unique (endsIn_of_leads ⟨6, rfl⟩), rfl⟩
  have matching := (expands none).folds (new 2 .empty) 14 (by decide) (by decide)
  rw [ran] at matching
  obtain ⟨last', ran', same⟩ := (matching nofun).exists_ok
  exact ⟨made, word, last', loaded, bound, ran', same.stack.symm.trans stack⟩

/-- Calls of the two words, each with its own arguments in front of it, are interchangeable. -/
def Agree (made : Machine) (name name' : String) (arguments arguments' : List Value) : Prop :=
  ∃ word word', made.bind name = some word ∧ made.bind name' = some word' ∧
    ∀ place place' : Option Location,
      Interchangeable 12 (pushing arguments ++ [⟨place, .word word⟩])
        (pushing arguments' ++ [⟨place', .word word'⟩])

theorem agree_of_rows {limit : Nat} {host : Host} {made : Machine}
    (loaded : bootstrapped limit host = .ok made) {name name' : String}
    {arguments arguments' : List Value} {expansion : Code}
    (row : Expansion name arguments expansion) (row' : Expansion name' arguments' expansion) :
    made.Agree name name' arguments arguments' := by
  obtain ⟨item, named, does⟩ := row.does
  obtain ⟨item', named', does'⟩ := row'.does
  obtain ⟨word, bound, stands⟩ := exists_standsFor loaded named does
  obtain ⟨word', bound', stands'⟩ := exists_standsFor loaded named' does'
  exact ⟨word, word', bound, bound', fun place place' =>
    (stands place).interchangeable (stands' place')⟩

/-- One quotation given to `bi@`, `2bi@` or `tri@` does what it does when it is given to `bi*`,
`2bi*` or `tri*` as often as these take one. With six values, `2tri*` runs its quotations three
times, on two values each. But `2tri@` sets four values aside as `tri@` sets two, and takes them
back at once: it runs its quotation twice, first above the lower three values and then above the
upper three. -/
theorem applying_agrees_with_spreading {limit : Nat} {host : Host} {made : Machine}
    (loaded : bootstrapped limit host = .ok made) :
    (∀ x y q, made.Agree "bi@" "bi*" [x, y, .list q] [x, y, .list q, .list q]) ∧
    (∀ x y z w q, made.Agree "2bi@" "2bi*" [x, y, z, w, .list q]
      [x, y, z, w, .list q, .list q]) ∧
    (∀ x y z q, made.Agree "tri@" "tri*" [x, y, z, .list q]
      [x, y, z, .list q, .list q, .list q]) ∧
    ∃ applying spreading, made.bind "2tri@" = some applying ∧
      made.bind "2tri*" = some spreading ∧
      ∀ (u v w x y z : Value) (q : Code) (place : Option Location),
        StandsFor 12 (pushing [u, v, w, x, y, z, .list q] ++ [⟨place, .word applying⟩])
          (pushing [u, v, w] ++ q ++ (pushing [x, y, z] ++ q)) ∧
        StandsFor 12
          (pushing [u, v, w, x, y, z, .list q, .list q, .list q] ++ [⟨place, .word spreading⟩])
          (pushing [u, v] ++ q ++ (pushing [w, x] ++ q ++ (pushing [y, z] ++ q))) := by
  refine ⟨fun x y q => ?_, fun x y z w q => ?_, fun x y z q => ?_, ?_⟩
  · exact agree_of_rows loaded (.biApply x y q) (.biSpread x y q q)
  · exact agree_of_rows loaded (.bi2Apply x y z w q) (.bi2Spread x y z w q q)
  · exact agree_of_rows loaded (.triApply x y z q) (.triSpread x y z q q q)
  · -- `2tri@` runs its quotation twice and `2tri*` three times, so each is followed by itself.
    have named : (Item.word .tri2Apply).name? = some "2tri@" := rfl
    have named' : (Item.word .tri2Spread).name? = some "2tri*" := rfl
    obtain ⟨applying, bound, is⟩ := exists_bound loaded named
    obtain ⟨spreading, bound', is'⟩ := exists_bound loaded named'
    refine ⟨applying, spreading, bound, bound', fun u v w x y z q place => ⟨?_, ?_⟩⟩
    · have does : Does 12 [u, v, w, x, y, z, .list q].reverse [.word .tri2Apply]
          (pushing [u, v, w] ++ q ++ (pushing [x, y, z] ++ q)) [] :=
        .tri2Apply (.itself q) (.itself q)
      exact (does _ (.cons place is .nil)).standsFor
    · have does : Does 12 [u, v, w, x, y, z, .list q, .list q, .list q].reverse
          [.word .tri2Spread]
          (pushing [u, v] ++ q ++ (pushing [w, x] ++ q ++ (pushing [y, z] ++ q))) [] :=
        .tri2Spread (.itself q) (.itself q) (.itself q)
      exact (does _ (.cons place is' .nil)).standsFor

/-- Where the quotation pushes a value, this comes to stand above the third value and the sixth, or
above the second, the fourth and the sixth. -/
theorem applying_agrees_with_spreading_of_push :
    let u : Value := .string "u"
    let v : Value := .string "v"
    let push : Value := .list (pushing [v])
    ∃ made applying spreading last last', bootstrapped 50 .empty = .ok made ∧
      made.bind "2tri@" = some applying ∧ made.bind "2tri*" = some spreading ∧
      runCode (pushing [u, u, u, u, u, u, push] ++ [⟨none, .word applying⟩]) (new 14 .empty) =
        .ok () last ∧ last.stack = [v, u, u, u, v, u, u, u] ∧
      runCode (pushing [u, u, u, u, u, u, push, push, push] ++ [⟨none, .word spreading⟩])
        (new 14 .empty) = .ok () last' ∧ last'.stack = [v, u, u, v, u, u, v, u, u] := by
  intro u v push
  obtain ⟨made, loaded, -⟩ := exists_bootstrapped (show 0 < 50 by decide) .empty
  obtain ⟨-, -, -, applying, spreading, bound, bound', stands⟩ :=
    applying_agrees_with_spreading loaded
  obtain ⟨applies, spreads⟩ := stands u u u u u u (pushing [v]) none
  have applied := applies.folds (new 2 .empty) 14 (by decide) (by decide)
  have spread := spreads.folds (new 2 .empty) 14 (by decide) (by decide)
  -- With such a quotation, the expansions only push values.
  have twice : runCode (pushing [u, u, u] ++ pushing [v] ++ (pushing [u, u, u] ++ pushing [v]))
      (new 2 .empty) = .ok () ((new 2 .empty).topped [v, u, u, u, v, u, u, u]) :=
    runCode_pushing [u, u, u, v, u, u, u, v] (new 2 .empty)
  have thrice : runCode (pushing [u, u] ++ pushing [v] ++
        (pushing [u, u] ++ pushing [v] ++ (pushing [u, u] ++ pushing [v])))
      (new 2 .empty) = .ok () ((new 2 .empty).topped [v, u, u, v, u, u, v, u, u]) :=
    runCode_pushing [u, u, v, u, u, v, u, u, v] (new 2 .empty)
  rw [twice] at applied
  rw [thrice] at spread
  obtain ⟨last, ran, same⟩ := (applied nofun).exists_ok
  obtain ⟨last', ran', same'⟩ := (spread nofun).exists_ok
  exact ⟨made, applying, spreading, last, last', loaded, bound, bound', ran, same.stack.symm, ran',
    same'.stack.symm⟩

end Machine

end LiveStack
