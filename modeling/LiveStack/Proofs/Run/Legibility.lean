import LiveStack.Proofs.Code.Literals
import LiveStack.Proofs.Run.Abreast
import LiveStack.Proofs.Run.Contexts
import LiveStack.Proofs.Run.Heredity

/-!
# All code that comes about can be read

Code is legible if each token of it is one token by itself, and if each literal in it that is no
float is read from its text as its value. All code that is read from a text is legible, and
whatever legible code makes of legible values is legible again: the literals that it builds are
written to read back. So in a machine that runs nothing but what was read or built, all that is on
the stack and all that the words do is legible.
-/

namespace LiveStack

open Execution

/-! ## Legible code -/

mutual

/-- All code in the value is legible. -/
def Value.Legible : Value → Prop
  | .int _ | .float _ | .bool _ | .string _ => True
  | .list code => Code.Legible code

/-- The element is one token, or a list of such, and means what its text says. -/
def Element.Legible : Element → Prop
  | .word word => word.Legible
  | .literal text value =>
      value.isFloat = true ∨ Token.Solid text ∧ Literal.read? text = some value
  | .quote code => Code.Legible code
  | .unknown text => Token.Solid text ∧ Literal.read? text = none

/-- The element of the instruction is legible. -/
def Instruction.Legible : Instruction → Prop
  | ⟨_, element⟩ => element.Legible

/-- What the word runs is legible. -/
def Handler.Legible : Handler → Prop
  | .primitive _ => True
  | .secondary body => Code.Legible body

/-- The word has a name that can be read, and runs legible code. -/
def Word.Legible : Word → Prop
  | ⟨name, handler⟩ => nameProblem? name = none ∧ handler.Legible

/-- Every instruction is legible. -/
def Code.Legible : List Instruction → Prop
  | [] => True
  | instruction :: rest => instruction.Legible ∧ Code.Legible rest

end

theorem Code.legible_iff {code : Code} :
    Code.Legible code ↔ ∀ item ∈ code, item.Legible := by
  induction code with
  | nil => simp [Code.Legible]
  | cons instruction rest ih => rw [Code.Legible, ih, List.forall_mem_cons]

mutual

/-- An element is legible just if all the tokens in it are. -/
theorem Element.every_legible (element : Element) :
    element.Every Element.Legible ↔ element.Legible := by
  match element with
  | .word _ | .literal _ _ | .unknown _ => exact Iff.rfl
  | .quote code => exact Code.every_legible code

theorem Code.every_legible (code : List Instruction) :
    Code.Every Element.Legible code ↔ Code.Legible code := by
  match code with
  | [] => exact Iff.rfl
  | ⟨location, element⟩ :: rest =>
      exact and_congr (Element.every_legible element) (Code.every_legible rest)

end

theorem Word.legible_primitive (primitive : Primitive) :
    Word.Legible ⟨primitive.name, .primitive primitive⟩ :=
  ⟨Machine.nameProblem?_name primitive, trivial⟩

/-- What a literal pushes is no list, since no token reads as one. -/
theorem Instruction.legible_value {item : Instruction} (legible : item.Legible) :
    Gives Value.Legible item.value := by
  obtain ⟨location, element⟩ := item
  cases element with
  | word word => exact .error _
  | unknown text => exact .error _
  | quote code => exact .ok legible
  | literal text value =>
      cases value with
      | list code =>
          rcases legible with float | ⟨-, read⟩
          · cases float
          · exact absurd read Literal.read?_ne_list
      | int | float | bool | string => exact .ok trivial

/-- What an item that pushes a value is made of a value. -/
theorem Element.legible_ofValue {value : Value} (legible : value.Legible) :
    (Element.ofValue value).Legible := by
  have written : value.isExact = true → value.isFloat = true ∨
      Token.Solid value.source ∧ Literal.read? value.source = some value := fun exact =>
    .inr ⟨Value.solid_source exact, Value.read?_source exact⟩
  cases value with
  | list code => exact legible
  | float number => exact .inl rfl
  | int | bool | string => exact written rfl

theorem Value.legible_hereditary : Hereditary Value.Legible Instruction.Legible where
  atom := by
    intro value atom
    cases value with
    | list code => exact absurd rfl (atom code)
    | _ => trivial
  list := Code.legible_iff
  made := Element.legible_ofValue
  value := Instruction.legible_value

/-! ## Legible machines -/

/-- All that is on the stack is legible, and so are all words that the machine holds. -/
structure Machine.Legible (machine : Machine) : Prop where
  stack : ∀ value ∈ machine.stack, value.Legible
  words : ∀ layer ∈ machine.handlers.contexts, ∀ word ∈ layer.items, word.Legible

theorem Layers.exists_mem_of_get? {α : Type} {layers : Layers α} {index : Nat} {item : α}
    (found : layers.get? index = some item) : ∃ layer ∈ layers.contexts, item ∈ layer.items := by
  rw [Layers.get?] at found
  obtain ⟨layer, known, held⟩ := Option.bind_eq_some_iff.1 found
  exact ⟨layer, List.mem_of_find?_eq_some known, Array.mem_of_getElem? held⟩

namespace Machine.Legible

variable {machine : Machine} (legible : machine.Legible)

include legible

theorem bind {name : String} {word : Word} (bound : machine.bind name = some word) :
    word.Legible := by
  rw [Machine.bind] at bound
  obtain ⟨entry, -, held⟩ := Option.bind_eq_some_iff.1 bound
  obtain ⟨layer, known, mem⟩ := Layers.exists_mem_of_get? held
  exact legible.words layer known word mem

theorem addWord {word : Word} (word' : word.Legible) (location : Option Location)
    (description signature : String) :
    (machine.addWord location word description signature).Legible := by
  refine ⟨legible.stack, ?_⟩
  obtain ⟨newest, older⟩ := List.forall_mem_cons.1 legible.words
  refine List.forall_mem_cons.2 ⟨?_, older⟩
  intro other mem
  rcases Array.mem_push.1 mem with mem | rfl
  · exact newest other mem
  · exact word'

theorem mark : machine.mark.Legible :=
  ⟨legible.stack, List.forall_mem_cons.2 ⟨fun word mem => absurd mem (Array.not_mem_empty word),
    legible.words⟩⟩

/-- Nothing else of a machine matters. -/
theorem congr {other : Machine} (stack : other.stack = machine.stack)
    (handlers : other.handlers = machine.handlers) : other.Legible :=
  ⟨stack ▸ legible.stack, handlers ▸ legible.words⟩

theorem withStack {stack : List Value} (stack' : ∀ value ∈ stack, value.Legible) :
    ({ machine with stack } : Machine).Legible := ⟨stack', legible.words⟩

theorem push {value : Value} (value' : value.Legible) :
    ({ machine with stack := value :: machine.stack } : Machine).Legible :=
  legible.withStack (List.forall_mem_cons.2 ⟨value', legible.stack⟩)

theorem pushAll {values : List Value} (values' : ∀ value ∈ values, value.Legible) :
    ({ machine with stack := values.reverse ++ machine.stack } : Machine).Legible := by
  refine legible.withStack fun value mem => ?_
  rcases List.mem_append.1 mem with mem | mem
  · exact values' value (List.mem_reverse.1 mem)
  · exact legible.stack value mem

/-- All that a text is read as is legible where the words are. -/
theorem ofSource (name source : String) :
    ∀ item ∈ (Code.ofSource machine.bind name source).1, item.Legible := by
  refine Code.legible_iff.1 ((Code.every_legible _).1 (Code.every_ofSource fun lexeme whole => ?_))
  refine (Token.solid_of_whole whole).imp_right (Or.imp_right fun solid => ?_)
  rcases Element.ofToken_cases machine.bind lexeme.text with
    ⟨word, bound, read⟩ | ⟨value, known, read⟩ | ⟨unknown, read⟩
  · rw [read]
    exact legible.bind bound
  · rw [read]
    exact .inr ⟨solid, known⟩
  · rw [read]
    exact ⟨solid, unknown⟩

theorem wordList : ∀ item ∈ machine.wordList, item.Legible := by
  intro item mem
  obtain ⟨word, found, rfl⟩ := List.mem_map.1 mem
  obtain ⟨name, -, bound⟩ := List.mem_filterMap.1 found
  exact legible.bind bound

end Machine.Legible

/-! ## Work that is left to do -/

/-- What an open call still runs, and what it puts back, is legible. -/
def Pending.Legible : Pending → Prop
  | .nothing => True
  | .restore x => x.Legible
  | .loop progress quotation item rest =>
      progress.Keeps Value.Legible Instruction.Legible ∧ (∀ item ∈ quotation, item.Legible) ∧
        item.Legible ∧ ∀ item ∈ rest, item.Legible

/-- What is left to do is legible. -/
def Frame.Legible : Frame → Prop
  | .code rest => ∀ item ∈ rest, item.Legible
  | .call pending => pending.Legible

/-- The work is on legible values. -/
def Work.Legible : Work → Prop
  | .give results => Gives (fun values => ∀ value ∈ values, value.Legible) results
  | .dip x quotation => x.Legible ∧ quotation.Legible
  | .loop progress list quotation =>
      progress.Keeps Value.Legible Instruction.Legible ∧ list.Legible ∧ quotation.Legible
  | .define quotation _ => quotation.Legible
  | .code body => ∀ item ∈ body, item.Legible
  | .words | .source _ | .alert _ | .use _ => True

theorem Primitive.work_legible (primitive : Primitive) {values : List Value}
    (legible : ∀ value ∈ values, value.Legible) : (primitive.work values).Legible := by
  by_cases right : values.length = primitive.arity
  · cases primitive with
    | operation op =>
        exact (Value.legible_hereditary.apply_gives op legible : Work.Legible (.give _))
    | dip =>
        obtain ⟨x, quotation, rfl⟩ := List.length_eq_two.1 right
        exact ⟨legible x (by simp), legible quotation (by simp)⟩
    | map | filter =>
        obtain ⟨list, quotation, rfl⟩ := List.length_eq_two.1 right
        exact ⟨by simp [Loop.Keeps], legible list (by simp), legible quotation (by simp)⟩
    | fold =>
        obtain ⟨list, initial, quotation, rfl⟩ := List.length_eq_three.1 right
        exact ⟨legible initial (by simp), legible list (by simp), legible quotation (by simp)⟩
    | words =>
        obtain rfl := List.length_eq_zero_iff.1 right
        exact (trivial : Work.Legible .words)
    | define =>
        obtain ⟨quotation, name, rfl⟩ := List.length_eq_two.1 right
        exact legible quotation (by simp)
    | eval =>
        obtain ⟨value, rfl⟩ := List.length_eq_one_iff.1 right
        cases value with
        | list code => exact Value.legible_hereditary.list.1 (legible _ (by simp))
        | string text => exact (trivial : Work.Legible (.source text))
        | int | float | bool => exact Gives.error _
    | alert =>
        obtain ⟨value, rfl⟩ := List.length_eq_one_iff.1 right
        exact (trivial : Work.Legible (.alert value))
    | use =>
        obtain ⟨value, rfl⟩ := List.length_eq_one_iff.1 right
        exact (trivial : Work.Legible (.use value))
  · rw [Primitive.work_of_length_ne right]
    exact Gives.error _

namespace Execution

/-- All that is left to do is legible, and so is the machine. -/
structure Legible (execution : Execution) : Prop where
  machine : execution.machine.Legible
  frames : ∀ frame ∈ execution.frames, frame.Legible

section
variable {machine : Machine} {frames : List Frame} (machine' : machine.Legible)
  (frames' : ∀ frame ∈ frames, frame.Legible)
include machine' frames'

/-- A call is open, with nothing left to do in it. -/
theorem legible_opened (fault : Option Fault) :
    Legible ⟨machine, .call .nothing :: frames, fault⟩ :=
  ⟨machine', List.forall_mem_cons.2 ⟨trivial, frames'⟩⟩

theorem legible_code {code : Code} (code' : ∀ item ∈ code, item.Legible) {pending : Pending}
    (pending' : pending.Legible) : Legible ⟨machine, .code code :: .call pending :: frames, none⟩ :=
  ⟨machine', List.forall_mem_cons.2 ⟨code', List.forall_mem_cons.2 ⟨pending', frames'⟩⟩⟩

theorem legible_check {α : Type} {property : α → Prop} {checked : Except Cause α}
    (gives : Gives property checked) {next : α → Execution}
    (go : ∀ result, property result → (next result).Legible) :
    (check checked machine (.call .nothing :: frames) next).Legible := by
  cases checked with
  | error cause => exact legible_opened machine' frames' _
  | ok result => exact go result (gives result rfl)

theorem legible_continueLoop {loop : Loop} (gathered : loop.Keeps Value.Legible Instruction.Legible)
    {quotation items : Code} (quotation' : ∀ item ∈ quotation, item.Legible)
    (items' : ∀ item ∈ items, item.Legible) :
    (continueLoop loop quotation items machine frames).Legible := by
  cases items with
  | nil =>
      have outcome := gathered.outcome Value.legible_hereditary
      exact legible_opened (machine'.push outcome) frames' none
  | cons item rest =>
      obtain ⟨first, rest'⟩ := List.forall_mem_cons.1 items'
      refine legible_check machine' frames' (Instruction.legible_value first) fun value kept => ?_
      exact legible_code (machine'.pushAll (gathered.arguments kept)) frames' quotation'
        ⟨gathered, quotation', first, rest'⟩

theorem legible_read (name source : String) : (read name source machine frames).Legible :=
  ⟨⟨machine'.stack, machine'.words⟩,
    List.forall_mem_cons.2 ⟨machine'.ofSource name source, frames'⟩⟩

theorem legible_perform {work : Work} (work' : work.Legible) :
    (perform work machine frames).Legible := by
  have hereditary := Value.legible_hereditary
  have opened : ∀ frame ∈ Frame.call .nothing :: frames, frame.Legible :=
    List.forall_mem_cons.2 ⟨trivial, frames'⟩
  cases work with
  | give results =>
      exact legible_check machine' frames' work' fun values kept =>
        legible_opened (machine'.pushAll kept) frames' none
  | dip x quotation =>
      exact legible_check machine' frames' (hereditary.asList_gives work'.2) fun code code' =>
        legible_code machine' frames' code' work'.1
  | loop loop list quotation =>
      obtain ⟨gathered, list', quotation'⟩ := work'
      exact legible_check machine' frames' (hereditary.asList_gives list') fun items items' =>
        legible_check machine' frames' (hereditary.asList_gives quotation') fun code code' =>
          legible_continueLoop machine' frames' gathered code' items'
  | words =>
      have list : Value.Legible (.list machine.wordList) := hereditary.list.2 machine'.wordList
      exact legible_opened (machine'.push list) frames' none
  | define quotation name =>
      have any : Gives (fun _ => True) name.asString := fun _ _ => trivial
      refine legible_check machine' frames' (hereditary.asList_gives work') fun body body' =>
        legible_check machine' frames' any fun text _ => ?_
      cases problem : nameProblem? text with
      | some reason => exact legible_opened machine' frames' _
      | none =>
          have word : Word.Legible ⟨text, .secondary body⟩ :=
            ⟨problem, Code.legible_iff.2 body'⟩
          exact legible_opened (machine'.addWord word _ _ _) frames' none
  | code code => exact ⟨machine', List.forall_mem_cons.2 ⟨work', opened⟩⟩
  | source source => exact legible_read machine' opened "<eval>" source
  | alert value =>
      have told : Machine.Legible { machine with
          host := { machine.host with alerts := machine.host.alerts.push value.render } } :=
        machine'.congr rfl rfl
      exact legible_opened told frames' none
  | use value =>
      have asked : Machine.Legible { machine with
          host := { machine.host with requests := machine.host.requests.push value.render } } :=
        machine'.congr rfl rfl
      rw [perform]
      cases machine.host.fetch value.render with
      | some source => exact legible_read asked opened _ source
      | none => exact legible_opened asked frames' _

theorem legible_begin {word : Word} (word' : word.Legible) :
    (begin word machine frames).Legible := by
  obtain ⟨name, handler⟩ := word
  cases handler with
  | secondary body => exact legible_code machine' frames' (Code.legible_iff.1 word'.2) trivial
  | primitive primitive =>
      refine legible_check machine' frames' (arguments_gives name primitive.arity machine'.stack)
        fun parts kept => ?_
      exact legible_perform (machine'.withStack kept.2) frames' (primitive.work_legible kept.1)

theorem legible_enter (site : Location) {word : Word} (word' : word.Legible) :
    (enter site word machine frames).Legible := by
  rw [enter]
  by_cases full : machine.limit ≤ machine.calls.length
  · rw [if_pos full]
    exact ⟨machine', frames'⟩
  · rw [if_neg full]
    have called : Machine.Legible { machine with
        location := some site, calls := ⟨word.name, site⟩ :: machine.calls } :=
      machine'.congr rfl rfl
    exact legible_begin called frames' word'

theorem legible_follow {instruction : Instruction} (instruction' : instruction.Legible) :
    (follow instruction machine frames).Legible := by
  obtain ⟨location, element⟩ := instruction
  let visited := { machine with location := location.or machine.location }
  have visited' : visited.Legible := machine'.congr rfl rfl
  cases element with
  | word word => exact legible_enter visited' frames' _ instruction'
  | literal text value =>
      have value' : value.Legible := Instruction.legible_value instruction' value rfl
      exact ⟨visited'.push value', frames'⟩
  | quote code =>
      have code' : Value.Legible (.list code) := instruction'
      exact ⟨visited'.push code', frames'⟩
  | unknown text => exact ⟨visited', frames'⟩

end

/-- A step of a legible execution leaves a legible one. -/
theorem Legible.step {execution : Execution} (legible : execution.Legible) :
    execution.step.Legible := by
  obtain ⟨machine, frames, fault⟩ := execution
  obtain ⟨machine', frames'⟩ := legible
  simp only at machine' frames'
  have popped : Machine.Legible { machine with calls := machine.calls.tail } :=
    machine'.congr rfl rfl
  -- A frame that is taken off leaves legible ones, and only an instruction or a loop adds any.
  match frames, fault with
  | [], _ => exact ⟨machine', frames'⟩
  | .code _ :: _, some fault => exact ⟨machine', (List.forall_mem_cons.1 frames').2⟩
  | .call _ :: _, some fault => exact ⟨popped, (List.forall_mem_cons.1 frames').2⟩
  | .code [] :: _, none => exact ⟨machine', (List.forall_mem_cons.1 frames').2⟩
  | .code (instruction :: rest) :: frames, none =>
      obtain ⟨code, frames'⟩ := List.forall_mem_cons.1 frames'
      obtain ⟨next, rest'⟩ := List.forall_mem_cons.1 code
      have behind : (Frame.code rest).Legible := rest'
      exact legible_follow machine' (List.forall_mem_cons.2 ⟨behind, frames'⟩) next
  | .call .nothing :: _, none => exact ⟨popped, (List.forall_mem_cons.1 frames').2⟩
  | .call (.restore x) :: _, none =>
      obtain ⟨back, frames'⟩ := List.forall_mem_cons.1 frames'
      have x' : x.Legible := back
      exact legible_opened (machine'.push x') frames' none
  | .call (.loop loop quotation item rest) :: frames, none =>
      obtain ⟨⟨gathered, quotation', item', rest'⟩, frames'⟩ := List.forall_mem_cons.1 frames'
      refine legible_check machine' frames' (top_gives machine'.stack) fun split kept => ?_
      exact legible_continueLoop (machine'.withStack kept.2) frames'
        (gathered.gather Value.legible_hereditary item' kept.1) quotation' rest'

theorem Legible.after {execution : Execution} (legible : execution.Legible) (count : Nat) :
    (execution.after count).Legible := by
  induction count generalizing execution with
  | zero => exact legible
  | succ count ih => exact ih legible.step

/-- A run that begins legible ends on a legible machine. -/
theorem Legible.final {execution : Execution} (legible : execution.Legible)
    {result : EStateM.Result Fault Machine Unit} (ends : EndsIn execution result) :
    (final result).Legible := by
  obtain ⟨count, ended⟩ := ends
  have last := (legible.after count).machine
  rwa [ended count (Nat.le_refl count), machine_settle] at last

end Execution

end LiveStack
