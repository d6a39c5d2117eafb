import LiveStack.Proofs.Run.Contexts

/-!
# Releasing a context undoes it

What is done between a mark and the release that belongs to it may run code, add words and mark and
release further contexts inside. It never reaches below the mark: the contexts there are kept as
they are, and as many contexts lie above them as are still to be released. So the release finds the
dictionary and the store of handlers as they were when the mark was made, and every look-up answers
as it did.
-/

namespace LiveStack

open Execution

namespace Machine

/-! ## Sequences of deeds -/

/-- Something done with a machine from outside: an action, or a word that is added without a run. -/
inductive Deed where
  | act (action : Action)
  | define (name : String) (body : Code)
  | add (location : Option Location) (word : Word) (description signature : String)

namespace Deed

/-- The machine after a deed. Only what releases a context can be refused. -/
def perform (machine : Machine) : Deed → Except RootReleased Machine
  | .act .release => machine.release
  | .act .reset => machine.reset
  | .act action => .ok (action.perform machine)
  | .define name body => .ok (machine.define name body)
  | .add location word description signature =>
      .ok (machine.addWord location word description signature)

/-- The machine after some deeds. -/
def performAll (machine : Machine) : List Deed → Except RootReleased Machine
  | [] => .ok machine
  | deed :: rest => do performAll (← deed.perform machine) rest

/-- How many of the contexts that deeds marked are open after a deed, when `depth` were open before
it. A release that belongs to no mark among the deeds is none of them. A reset marks again what it
releases. -/
def depth? (depth : Nat) : Deed → Option Nat
  | .act .mark => some (depth + 1)
  | .act .release => if depth = 0 then none else some (depth - 1)
  | _ => some depth

/-- How many of the contexts that deeds marked are open after all of them. -/
def depthAfter? (depth : Nat) : List Deed → Option Nat
  | [] => some depth
  | deed :: rest => (deed.depth? depth).bind (depthAfter? · rest)

/-- Every mark among the deeds has its release among them, and every release its mark. -/
def Nested (deeds : List Deed) : Prop := depthAfter? 0 deeds = some 0

instance (deeds : List Deed) : Decidable (Nested deeds) :=
  inferInstanceAs (Decidable (depthAfter? 0 deeds = some 0))

end Deed

/-! ## What a release and a reset come back to -/

/-- A mark is undone by a release. -/
theorem release_mark (machine : Machine) : machine.mark.release = .ok machine := rfl

/-- The contexts that a release comes back to are the same for all machines of one base. -/
theorem release_of_base_eq {first last released : Machine} (same : last.base = first.base)
    (done : first.release = .ok released) :
    ∃ after, last.release = .ok after ∧
      after.dictionary = released.dictionary ∧ after.handlers = released.handlers ∧
      after.base = released.base := by
  obtain ⟨host, limit, stack, location, calls, ⟨newest, older⟩, ⟨newest', older'⟩,
    diagnostics⟩ := first
  obtain ⟨host', limit', stack', location', calls', ⟨top, below⟩, ⟨top', below'⟩,
    diagnostics'⟩ := last
  obtain ⟨rfl, rfl, rfl, fetch⟩ := Base.mk.inj same
  match below, below', done with
  | _ :: _, _ :: _, rfl => exact ⟨_, rfl, rfl, rfl, congrArg (Base.mk _ _ _) fetch⟩

/-- The machine that a reset comes back to is the same for all machines of one base, the host
apart. -/
theorem reset_of_base_eq {first last fresh : Machine} (same : last.base = first.base)
    (done : first.reset = .ok fresh) : last.reset = .ok { fresh with host := last.host } := by
  obtain ⟨host, limit, stack, location, calls, ⟨newest, older⟩, ⟨newest', older'⟩,
    diagnostics⟩ := first
  obtain ⟨host', limit', stack', location', calls', ⟨top, below⟩, ⟨top', below'⟩,
    diagnostics'⟩ := last
  obtain ⟨rfl, rfl, rfl, -⟩ := Base.mk.inj same
  match below, below', done with
  | _ :: _, _ :: _, rfl => rfl

theorem marked_of_release {machine released : Machine} (done : machine.release = .ok released) :
    machine.base.Marked := by
  obtain ⟨host, limit, stack, location, calls, ⟨newest, older⟩, ⟨newest', older'⟩,
    diagnostics⟩ := machine
  match older, older', done with
  | _ :: _, _ :: _, _ => exact ⟨List.cons_ne_nil _ _, List.cons_ne_nil _ _⟩

/-! ## Contexts above a base -/

/-- As many releases as the depth says come back to the base. -/
def Above (base : Base) : (depth : Nat) → Machine → Prop
  | 0, machine => machine.base = base
  | depth + 1, machine => ∃ released, machine.release = .ok released ∧ Above base depth released

namespace Above

variable {base : Base} {depth : Nat} {machine : Machine}

/-- What keeps the contexts below the newest stays above the base. -/
theorem of_base_eq {last : Machine} (above : Above base depth machine)
    (same : last.base = machine.base) : Above base depth last := by
  induction depth generalizing machine last with
  | zero => exact same.trans above
  | succ depth ih =>
      obtain ⟨released, done, above⟩ := above
      obtain ⟨after, done', -, -, same'⟩ := release_of_base_eq same done
      exact ⟨after, done', ih above same'⟩

theorem marked (above : Above base depth machine) (marked : base.Marked) : machine.base.Marked := by
  cases depth with
  | zero =>
      rw [show machine.base = base from above]
      exact marked
  | succ depth =>
      obtain ⟨released, done, -⟩ := above
      exact marked_of_release done

/-- Every action but a mark, a release and a reset keeps the base. -/
theorem action (above : Above base depth machine) (action : Action)
    (other : action ≠ .mark ∧ action ≠ .release ∧ action ≠ .reset) :
    Above base depth (action.perform machine) := by
  refine above.of_base_eq ?_
  cases action with
  | source name text =>
      rw [Action.perform, attempt_snd]
      exact (becomes_runSource machine name text).base_eq
  | code code =>
      rw [Action.perform, attempt_snd]
      exact (becomes_runCode machine code).base_eq
  | call site word =>
      rw [Action.perform, attempt_snd]
      exact (becomes_call machine site word).base_eq
  | push value => rfl
  | pop =>
      rw [Action.perform, attempt_snd, pop_apply]
      cases top machine <;> rfl
  | clear => rfl
  | mark => exact absurd rfl other.1
  | release => exact absurd rfl other.2.1
  | reset => exact absurd rfl other.2.2

/-- A deed is not refused, and leaves as many contexts open as it should. -/
theorem perform (above : Above base depth machine) (marked : base.Marked) {deed : Deed}
    {depth' : Nat} (counted : deed.depth? depth = some depth') :
    ∃ after, deed.perform machine = .ok after ∧ Above base depth' after := by
  -- Only `mark` and `release` change how many contexts are open; the others leave what is below as
  -- it is.
  cases deed with
  | act action =>
      cases action with
      | mark =>
          cases counted
          exact ⟨_, rfl, machine, release_mark machine, above⟩
      | release =>
          cases depth with
          | zero => cases counted
          | succ depth =>
              cases counted
              exact above
      | reset =>
          cases counted
          obtain ⟨fresh, done, same⟩ := reset_of_marked (above.marked marked)
          exact ⟨fresh, done, above.of_base_eq same⟩
      | _ =>
          cases counted
          exact ⟨_, rfl, above.action _ (by simp)⟩
  | define name body =>
      cases counted
      exact ⟨_, rfl, above.of_base_eq rfl⟩
  | add location word description signature =>
      cases counted
      exact ⟨_, rfl, above.of_base_eq rfl⟩

/-- No deed of a sequence is refused, if each release among them belongs to a mark. -/
theorem performAll (above : Above base depth machine) (marked : base.Marked) {deeds : List Deed}
    {depth' : Nat} (counted : Deed.depthAfter? depth deeds = some depth') :
    ∃ last, Deed.performAll machine deeds = .ok last ∧ Above base depth' last := by
  induction deeds generalizing machine depth with
  | nil =>
      cases counted
      exact ⟨machine, rfl, above⟩
  | cons deed rest ih =>
      obtain ⟨between, one, others⟩ := Option.bind_eq_some_iff.1 counted
      obtain ⟨after, done, above'⟩ := above.perform marked one
      obtain ⟨last, ran, above''⟩ := ih above' others
      refine ⟨last, ?_, above''⟩
      rw [Deed.performAll, done]
      exact ran

end Above

/-! ## Releasing -/

/-- Two machines give the same answer to every question about words. -/
structure AnswersAs (first second : Machine) : Prop where
  entry : ∀ name, first.dictionary.get? name = second.dictionary.get? name
  contains : ∀ name, first.dictionary.contains name = second.dictionary.contains name
  names : first.dictionary.names = second.dictionary.names
  meaning : ∀ name, first.bind name = second.bind name
  token : ∀ token, first.dictionary.classify token = second.dictionary.classify token
  handler : ∀ index, first.handlers.get? index = second.handlers.get? index

theorem answersAs_of_eq {first second : Machine} (words : first.dictionary = second.dictionary)
    (handlers : first.handlers = second.handlers) : AnswersAs first second where
  entry name := by rw [words]
  contains name := by rw [words]
  names := by rw [words]
  meaning name := by rw [bind, bind, words, handlers]
  token token := by rw [words]
  handler index := by rw [handlers]

theorem marked_mark (machine : Machine) : machine.mark.base.Marked :=
  marked_of_release (release_mark machine)

/-- After a mark, whatever is run, defined, marked and released, as long as no more is released
than was marked, the release that belongs to the mark is not refused, and every question about
words is answered as before the mark. In particular, what is done with a new machine that has the
words of the language is undone by a reset: it gives the state that a reset gives at once, whose
words are those of the new machine and which is idle. Only the host remembers. -/
theorem release_undoes {deeds : List Deed} (nested : Deed.Nested deeds) :
    (∀ machine : Machine, ∃ last released,
      Deed.performAll machine.mark deeds = .ok last ∧ last.release = .ok released ∧
        AnswersAs released machine) ∧
    (∀ (limit : Nat) (host : Host) (machine : Machine), bootstrapped limit host = .ok machine →
      ∃ last fresh, Deed.performAll machine deeds = .ok last ∧
        machine.reset = .ok fresh ∧ last.reset = .ok { fresh with host := last.host } ∧
        AnswersAs fresh machine ∧ fresh.stack = [] ∧ fresh.calls = [] ∧
        fresh.diagnostics = [] ∧ fresh.location = none) := by
  constructor
  · intro machine
    have start : Above machine.mark.base 0 machine.mark := rfl
    obtain ⟨last, ran, above⟩ := start.performAll (marked_mark machine) nested
    obtain ⟨released, done, words, handlers, -⟩ := release_of_base_eq above (release_mark machine)
    exact ⟨last, released, ran, done, answersAs_of_eq words handlers⟩
  · intro limit host machine made
    obtain ⟨stack, calls, diagnostics, done⟩ := idle_of_bootstrapped made
    have start : Above machine.base 0 machine := rfl
    obtain ⟨last, ran, above⟩ := start.performAll (marked_of_bootstrapped made) nested
    exact ⟨last, _, ran, done, reset_of_base_eq above done, answersAs_of_eq rfl rfl, stack, calls,
      diagnostics, rfl⟩

/-- A further context is opened and released, and then the word `define` gets another meaning by a
run. The release finds the built-in word again. -/
theorem release_undoes_of_define :
    ∃ start last released : Machine, bootstrapped 50 .empty = .ok start ∧
      Deed.performAll start.mark
        [.act .mark, .define "define" [], .act .release,
          .act (.source "<line>" "[ ] \"define\" define")] = .ok last ∧
      last.bind "define" = some ⟨"define", .secondary []⟩ ∧
      last.release = .ok released ∧
      released.bind "define" = some ⟨"define", .primitive .define⟩ := by
  obtain ⟨start, made, ready⟩ := exists_bootstrapped (show 0 < 50 by decide) .empty
  have nested : Deed.Nested [.act .mark, .define "define" [], .act .release,
      .act (.source "<line>" "[ ] \"define\" define")] := rfl
  obtain ⟨last, released, ran, done, same⟩ := (release_undoes nested).1 start
  refine ⟨start, last, released, made, ran, ?_, done, ?_⟩
  · have orderly : start.mark.Orderly := ⟨ready.orderly.1, ready.orderly.2⟩
    have defining : start.mark.Defining := by
      rw [Defining, bind_mark ready.orderly]
      exact ready.defining
    have room : start.mark.calls.length < start.mark.limit := by
      show start.calls.length < start.limit
      rw [ready.idle]
      exact ready.room
    obtain ⟨tokens, lexed, defines⟩ : ∃ tokens,
        Token.ofSource "<line>" "[ ] \"define\" define" = (tokens, []) ∧
          Token.Defines tokens [] "define" :=
      ⟨[⟨.opening, ⟨"<line>", 1, 1⟩⟩, ⟨.closing, ⟨"<line>", 1, 3⟩⟩,
          ⟨.string "\"define\"", ⟨"<line>", 1, 5⟩⟩, ⟨.word "define", ⟨"<line>", 1, 14⟩⟩],
        by decide, ⟨⟨_, _, _, _, _, rfl, by decide⟩, by decide, by decide⟩⟩
    obtain ⟨place, run⟩ := runSource_defines orderly defining room lexed defines
    have left : Deed.performAll start.mark
        [.act .mark, .define "define" [], .act .release,
          .act (.source "<line>" "[ ] \"define\" define")] =
        .ok (Action.perform start.mark (.source "<line>" "[ ] \"define\" define")) := rfl
    obtain rfl := Except.ok.inj (left.symm.trans ran)
    rw [Action.perform, attempt_snd, run]
    have orderly' : Orderly { start.mark with location := some place } := ⟨orderly.1, orderly.2⟩
    exact bind_define orderly' "define" [] "define"
  · rw [same.meaning]
    exact ready.defining

end Machine

end LiveStack
