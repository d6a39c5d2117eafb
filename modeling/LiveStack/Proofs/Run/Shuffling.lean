import LiveStack.Proofs.Run.Changes
import LiveStack.Proofs.Run.Prelude
import LiveStack.Proofs.Run.Unfolding

/-!
# The words that move values about

The words of the prelude that only move values about are made of lists that are built and run: even
`swap` puts the upper value into a list, and runs this below the lower one. All the same they leave
nothing behind. The values are those that were there, in another order, twice or not at all, and of
the machine only the stack has changed, and the place that execution has reached.
-/

namespace LiveStack

open Execution

namespace Machine

/-- A run that leaves the handlers as they were has defined nothing. -/
theorem Becomes.dictionary_eq {first last : Machine} (becomes : Becomes first last)
    (same : last.handlers = first.handlers) : last.dictionary = first.dictionary := by
  -- Every definition adds a handler, and none is ever taken away.
  have grown : first.handlers.size < last.handlers.size ∨ last.dictionary = first.dictionary := by
    have whole := becomes.keeps
      (fun machine => first.handlers.size < machine.handlers.size ∨
        machine.handlers = first.handlers ∧ machine.dictionary = first.dictionary) ?_
      (.inr ⟨rfl, rfl⟩)
    · exact whole.imp_right And.right
    · intro before after change holds
      cases change with
      | define name body valid =>
          refine .inl ?_
          have one : (before.define name body).handlers.size = before.handlers.size + 1 :=
            Layers.size_push _ _
          rcases holds with larger | ⟨handlers, -⟩
          · omega
          · rw [one, handlers]
            exact Nat.lt_succ_self _
      | _ => exact holds
  refine grown.resolve_left fun larger => ?_
  rw [same] at larger
  exact Nat.lt_irrefl _ larger

/-- A run that leaves the machine as it was, but for the stack, places and what is counted against
the limit, has changed nothing else but the place. -/
theorem exists_of_matches {start last : Machine} {code : Code} {stack : List Value}
    (ran : runCode code start = .ok () last) (same : last.Matches { start with stack }) :
    ∃ location, last = { start with stack, location } := by
  have balanced := balanced_runCode start code
  have becomes := becomes_runCode start code
  rw [ran] at balanced becomes
  have dictionary := becomes.dictionary_eq same.handlers.symm
  obtain ⟨host, limit, stack, location, calls, words, handlers, diagnostics⟩ := last
  obtain ⟨calls', limit'⟩ := balanced
  obtain ⟨host', stack', -, handlers', diagnostics'⟩ := same
  cases host'
  cases stack'
  cases handlers'
  cases diagnostics'
  cases calls'
  cases limit'
  cases dictionary
  exact ⟨location, rfl⟩

/-- Code that stands for nothing, with room enough for its calls, changes the values on top of the
stack and the place, and nothing else. -/
theorem runCode_of_expands {depth : Nat} {before after : List Value} {code : Code}
    (expands : Expands depth before code [] after) {machine : Machine}
    (room : machine.calls.length + depth ≤ machine.limit) :
    ∃ location, runCode code (machine.topped before) =
      .ok () { machine.topped after with location } := by
  let idle : Machine := { machine with limit := 0, calls := [] }
  have same : machine.Matches idle := ⟨rfl, rfl, rfl, rfl, rfl⟩
  have spares : Spares depth machine idle := by
    refine ⟨?_, room⟩
    show 0 + machine.calls.length + depth ≤ machine.limit + 0
    omega
  have matching := expands machine idle same (.back spares nofun)
  generalize ran : runCode code (machine.topped before) = result at matching
  cases matching with
  | @ok last _ same =>
      have same' : last.Matches { machine.topped before with stack := after ++ machine.stack } :=
        ⟨same.host, same.stack, same.dictionary, same.handlers, same.diagnostics⟩
      obtain ⟨location, rfl⟩ := exists_of_matches ran same'
      exact ⟨location, rfl⟩

end Machine

namespace Prelude

/-- The words that move values about: their names, the values they take and the values they leave,
the topmost last. -/
inductive Shuffle : String → List Value → List Value → Prop
  | swap (a b : Value) : Shuffle "swap" [a, b] [b, a]
  | nip (a b : Value) : Shuffle "nip" [a, b] [b]
  | overTop (a b : Value) : Shuffle "over" [a, b] [a, b, a]
  | dup2 (a b : Value) : Shuffle "2dup" [a, b] [a, b, a, b]
  | dupd (a b : Value) : Shuffle "dupd" [a, b] [a, a, b]
  | drop2 (a b : Value) : Shuffle "2drop" [a, b] []
  | drop3 (a b c : Value) : Shuffle "3drop" [a, b, c] []
  | swapd (a b c : Value) : Shuffle "swapd" [a, b, c] [b, a, c]
  | rot (a b c : Value) : Shuffle "rot" [a, b, c] [b, c, a]
  | rotBack (a b c : Value) : Shuffle "-rot" [a, b, c] [c, a, b]
  | pick (a b c : Value) : Shuffle "pick" [a, b, c] [a, b, c, a]
  | dup3 (a b c : Value) : Shuffle "3dup" [a, b, c] [a, b, c, a, b, c]
  | nip2 (a b c : Value) : Shuffle "2nip" [a, b, c] [c]

/-- Six calls inside each other are enough for each of these words. -/
theorem Shuffle.does {name : String} {arguments results : List Value}
    (row : Shuffle name arguments results) :
    ∃ item : Item, item.name? = some name ∧
      Does 6 arguments.reverse [item] [] results.reverse := by
  cases row with
  | swap a b => exact ⟨.word .swap, rfl, Does.swap⟩
  | nip a b => exact ⟨.word .nip, rfl, Does.nip⟩
  | overTop a b => exact ⟨.word .overTop, rfl, Does.overTop⟩
  | dup2 a b => exact ⟨.word .dup2, rfl, Does.dup2⟩
  | dupd a b => exact ⟨.word .dupd, rfl, Does.dupd⟩
  | drop2 a b => exact ⟨.word .drop2, rfl, Does.drop2⟩
  | drop3 a b c => exact ⟨.word .drop3, rfl, Does.drop3⟩
  | swapd a b c => exact ⟨.word .swapd, rfl, Does.swapd⟩
  | rot a b c => exact ⟨.word .rot, rfl, Does.rot⟩
  | rotBack a b c => exact ⟨.word .rotBack, rfl, Does.rotBack⟩
  | pick a b c => exact ⟨.word .pick, rfl, Does.pick⟩
  | dup3 a b c => exact ⟨.word .dup3, rfl, Does.dup3⟩
  | nip2 a b c => exact ⟨.word .nip2, rfl, Does.nip2⟩

end Prelude

namespace Machine

open Prelude

/-- The words of the prelude that move values about permute, copy and drop them exactly. Called on
any machine with six calls of room, whatever is defined there and whatever is on the stack below,
they succeed, leave the very values that the table says, and change nothing else but the place that
execution has reached. The names are looked up in a new machine; later on they mean the same words
until they are defined anew (`Becomes.bind_eq`). -/
theorem shufflers_permute {limit : Nat} {host : Host} {made : Machine}
    (loaded : bootstrapped limit host = .ok made) {name : String} {arguments results : List Value}
    (row : Shuffle name arguments results) :
    ∃ word, made.bind name = some word ∧
      ∀ (machine : Machine) (place : Option Location),
        machine.calls.length + 6 ≤ machine.limit →
        ∃ location, runCode [⟨place, .word word⟩] (machine.topped arguments.reverse) =
          .ok () { machine.topped results.reverse with location } := by
  obtain ⟨item, named, does⟩ := row.does
  obtain ⟨word, bound, is⟩ := exists_bound loaded named
  refine ⟨word, bound, fun machine place room => ?_⟩
  exact runCode_of_expands (does _ (.cons place is .nil)) room

/-- The word `-rot` with a list that calls it and a string that is a bracket among its values, on a
machine that knows no words. -/
theorem shufflers_permute_of_words :
    ∃ made word location, bootstrapped 50 .empty = .ok made ∧ made.bind "-rot" = some word ∧
      runCode [⟨none, .word word⟩]
          ((new 6 .empty).topped [.string "]", .list [.made (.word word)], .bool true]) =
        .ok () { (new 6 .empty).topped [.list [.made (.word word)], .bool true, .string "]"] with
          location } := by
  obtain ⟨made, loaded, -⟩ := exists_bootstrapped (show 0 < 50 by decide) .empty
  have named : (Item.word .rotBack).name? = some "-rot" := rfl
  obtain ⟨word, bound, -⟩ := exists_bound loaded named
  obtain ⟨word', bound', permutes⟩ := shufflers_permute loaded
    (.rotBack (.bool true) (.list [.made (.word word)]) (.string "]"))
  obtain rfl := Option.some.inj (bound.symm.trans bound')
  obtain ⟨location, ran⟩ := permutes (new 6 .empty) none (by decide)
  exact ⟨made, word, location, loaded, bound, ran⟩

end Machine

end LiveStack
