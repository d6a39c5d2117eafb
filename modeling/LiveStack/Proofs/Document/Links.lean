import LiveStack.Document.Basic

/-!
# Links

Every change of a document changes the links of a few nodes, or what a few nodes hold, and nothing
else. Here are the equations that say which. On top of them stand chains: siblings that follow each
other in one list. A chain is cut and joined like a list, and changing a node that is not in it
leaves it as it is.
-/

namespace LiveStack

/-- Where a node is: the siblings around it, and its list. -/
structure Links where
  prev : Option NodeId
  next : Option NodeId
  parent : Option NodeId

namespace Document

variable {document document' : Document} {id other : NodeId}

/-- Where a node is, unless it was removed. -/
def links? (document : Document) (id : NodeId) : Option Links :=
  (document.get? id).map fun node => ⟨node.prev, node.next, node.parent⟩

/-- A node that has not been removed. -/
def Live (document : Document) (id : NodeId) : Prop := (document.get? id).isSome

theorem live_iff_links? : document.Live id ↔ ∃ links, document.links? id = some links := by
  rw [Live, links?]
  cases document.get? id <;> simp

theorem live_iff_kind? : document.Live id ↔ ∃ kind, document.kind? id = some kind := by
  rw [Live, kind?]
  cases document.get? id <;> simp

theorem live_of_links? {links : Links} (found : document.links? id = some links) :
    document.Live id := live_iff_links?.2 ⟨links, found⟩

theorem live_of_kind? {kind : NodeKind} (found : document.kind? id = some kind) :
    document.Live id := live_iff_kind?.2 ⟨kind, found⟩

theorem lt_size_of_live (live : document.Live id) : id < document.slots.size := by
  rcases Nat.lt_or_ge id document.slots.size with near | far
  · exact near
  · rw [Live, get?, Array.getElem?_eq_none far] at live
    cases live

theorem mem_live : id ∈ document.live ↔ document.Live id := by
  rw [live, List.mem_filter, List.mem_range]
  exact and_iff_right_of_imp lt_size_of_live

theorem prev?_eq : document.prev? id = (document.links? id).bind (·.prev) := by
  rw [prev?, links?]
  cases document.get? id <;> rfl

theorem next?_eq : document.next? id = (document.links? id).bind (·.next) := by
  rw [next?, links?]
  cases document.get? id <;> rfl

theorem parent?_eq : document.parent? id = (document.links? id).bind (·.parent) := by
  rw [parent?, links?]
  cases document.get? id <;> rfl

/-- A document is determined by its nodes. -/
theorem ext_of_get? (size : document.slots.size = document'.slots.size)
    (same : ∀ id, document.get? id = document'.get? id) : document = document' := by
  obtain ⟨slots⟩ := document
  obtain ⟨slots'⟩ := document'
  congr 1
  refine Array.ext size fun id inside inside' => ?_
  have := same id
  rwa [get?, get?, Array.getElem?_eq_getElem inside, Array.getElem?_eq_getElem inside'] at this

theorem get?_eq_of_links? (links : document'.links? id = document.links? id)
    (kind : document'.kind? id = document.kind? id) : document'.get? id = document.get? id := by
  rw [links?, links?] at links
  rw [kind?, kind?] at kind
  cases after : document'.get? id with
  | none =>
      rw [after] at links
      cases before : document.get? id with
      | none => rfl
      | some node => simp [before] at links
  | some node' =>
      rw [after] at links kind
      cases before : document.get? id with
      | none => simp [before] at links
      | some node =>
          obtain ⟨kind₁, prev₁, next₁, parent₁⟩ := node
          obtain ⟨kind₂, prev₂, next₂, parent₂⟩ := node'
          simp_all

/-! ## What the changes change -/

theorem get?_update (change : Node → Node) :
    (document.update id change).get? other =
      if other = id then (document.get? other).map change else document.get? other := by
  rw [update, get?, get?, Array.getElem?_modify]
  by_cases same : other = id
  · subst same
    rw [if_pos rfl, if_pos rfl]
    cases document.slots[other]? with
    | none => rfl
    | some slot => cases slot <;> rfl
  · rw [if_neg (Ne.symm same), if_neg same]

@[simp] theorem size_update (change : Node → Node) :
    (document.update id change).slots.size = document.slots.size := by
  simp [update]

theorem links?_setPrev (prev : Option NodeId) :
    (document.setPrev id prev).links? other =
      if other = id then (document.links? other).map ({ · with prev }) else
        document.links? other := by
  rw [setPrev, links?, links?, get?_update]
  split <;> cases document.get? other <;> rfl

theorem links?_setNext (next : Option NodeId) :
    (document.setNext id next).links? other =
      if other = id then (document.links? other).map ({ · with next }) else
        document.links? other := by
  rw [setNext, links?, links?, get?_update]
  split <;> cases document.get? other <;> rfl

theorem links?_setParent (parent : Option NodeId) :
    (document.setParent id parent).links? other =
      if other = id then (document.links? other).map ({ · with parent }) else
        document.links? other := by
  rw [setParent, links?, links?, get?_update]
  split <;> cases document.get? other <;> rfl

@[simp] theorem links?_setLast (last : NodeId) :
    (document.setLast id last).links? other = document.links? other := by
  rw [setLast, links?, links?, get?_update]
  split
  · cases document.get? other with
    | none => rfl
    | some node =>
        obtain ⟨kind, prev, next, parent⟩ := node
        cases kind <;> rfl
  · rfl

@[simp] theorem kind?_setPrev (prev : Option NodeId) :
    (document.setPrev id prev).kind? other = document.kind? other := by
  rw [setPrev, kind?, kind?, get?_update]
  split <;> cases document.get? other <;> rfl

@[simp] theorem kind?_setNext (next : Option NodeId) :
    (document.setNext id next).kind? other = document.kind? other := by
  rw [setNext, kind?, kind?, get?_update]
  split <;> cases document.get? other <;> rfl

@[simp] theorem kind?_setParent (parent : Option NodeId) :
    (document.setParent id parent).kind? other = document.kind? other := by
  rw [setParent, kind?, kind?, get?_update]
  split <;> cases document.get? other <;> rfl

/-- The end of a list, set anew. -/
def NodeKind.endingWith (last : NodeId) : NodeKind → NodeKind
  | .list first _ => .list first last
  | kind => kind

/-- A list keeps its head when it gets another end. -/
theorem first?_of_endingWith {condition : Prop} [Decidable condition] {last : NodeId}
    (kind : document'.kind? id = if condition then
      (document.kind? id).map (NodeKind.endingWith last) else document.kind? id) :
    document'.first? id = document.first? id := by
  rw [first?, first?, kind]
  by_cases holds : condition
  · rw [if_pos holds]
    cases document.kind? id with
    | none => rfl
    | some kind => cases kind <;> rfl
  · rw [if_neg holds]

theorem kind?_setLast (last : NodeId) :
    (document.setLast id last).kind? other =
      if other = id then (document.kind? other).map (NodeKind.endingWith last) else
        document.kind? other := by
  rw [setLast, kind?, kind?, get?_update]
  split
  · cases document.get? other with
    | none => rfl
    | some node =>
        obtain ⟨kind, prev, next, parent⟩ := node
        cases kind <;> rfl
  · rfl

@[simp] theorem size_setPrev (prev : Option NodeId) :
    (document.setPrev id prev).slots.size = document.slots.size := size_update _

@[simp] theorem size_setNext (next : Option NodeId) :
    (document.setNext id next).slots.size = document.slots.size := size_update _

@[simp] theorem size_setParent (parent : Option NodeId) :
    (document.setParent id parent).slots.size = document.slots.size := size_update _

@[simp] theorem size_setLast (last : NodeId) :
    (document.setLast id last).slots.size = document.slots.size := size_update _

theorem links?_joinAfter (list next : Option NodeId) (last : NodeId) :
    (document.joinAfter list next last).links? other =
      if next = some other then (document.links? other).map ({ · with prev := some last }) else
        document.links? other := by
  cases next with
  | some next =>
      rw [joinAfter, links?_setPrev]
      simp only [Option.some.injEq, eq_comm]
  | none =>
      cases list with
      | some list => simp [joinAfter]
      | none => simp [joinAfter]

theorem kind?_joinAfter (list next : Option NodeId) (last : NodeId) :
    (document.joinAfter list next last).kind? other =
      if next = none ∧ list = some other then
        (document.kind? other).map (NodeKind.endingWith last)
      else document.kind? other := by
  cases next with
  | some next => simp [joinAfter]
  | none =>
      cases list with
      | some list =>
          rw [joinAfter, kind?_setLast]
          simp only [Option.some.injEq, eq_comm, true_and]
      | none => simp [joinAfter]

@[simp] theorem size_joinAfter (list next : Option NodeId) (last : NodeId) :
    (document.joinAfter list next last).slots.size = document.slots.size := by
  cases next with
  | some next => exact size_setPrev _
  | none =>
      cases list with
      | some list => exact size_setLast _
      | none => rfl

theorem get?_push (node : Node) :
    (document.push node).get? id =
      if id = document.slots.size then some node else document.get? id := by
  rw [push, get?, get?, Array.getElem?_push]
  by_cases same : id = document.slots.size
  · rw [if_pos same, if_pos same]
    rfl
  · rw [if_neg same, if_neg same]

/-- The node that a push makes is of the kind it was given. -/
theorem kind?_push (node : Node) :
    (document.push node).kind? document.slots.size = some node.kind := by
  rw [kind?, get?_push, if_pos rfl]
  rfl

@[simp] theorem size_push (node : Node) :
    (document.push node).slots.size = document.slots.size + 1 := by
  simp [push]

theorem get?_erase :
    (document.erase id).get? other = if other = id then none else document.get? other := by
  rw [erase, get?, get?, Array.getElem?_modify]
  by_cases same : other = id
  · subst same
    rw [if_pos rfl, if_pos rfl]
    cases document.slots[other]? <;> rfl
  · rw [if_neg (Ne.symm same), if_neg same]

@[simp] theorem size_erase : (document.erase id).slots.size = document.slots.size := by
  simp [erase]

/-- A node after all words were classified anew. -/
theorem get?_reclassify (classify : String → TokenClass) :
    (document.reclassify classify).get? id = (document.get? id).map fun node =>
      match node.kind with
      | .word _ text => { node with kind := .word (classify text) text }
      | _ => node := by
  rw [reclassify, get?, get?, Array.getElem?_map]
  cases document.slots[id]? with
  | none => rfl
  | some slot => cases slot <;> rfl

@[simp] theorem links?_reclassify (classify : String → TokenClass) :
    (document.reclassify classify).links? id = document.links? id := by
  rw [links?, links?, get?_reclassify]
  cases document.get? id with
  | none => rfl
  | some node =>
      obtain ⟨kind, prev, next, parent⟩ := node
      cases kind <;> rfl

/-- What is no word is what it was. -/
theorem kind?_reclassify_iff {kind : NodeKind} (classify : String → TokenClass)
    (noWord : ∀ reading text, kind ≠ .word reading text) :
    (document.reclassify classify).kind? id = some kind ↔ document.kind? id = some kind := by
  rw [kind?, kind?, get?_reclassify]
  cases document.get? id with
  | none => rfl
  | some node =>
      obtain ⟨kind', prev, next, parent⟩ := node
      cases kind' with
      | word reading text => simp [(noWord _ _).symm]
      | _ => rfl

/-! ## Chains -/

/-- Every item of a list is between the items around it, as `Between` has it. -/
def Threaded {α : Type} (Between : Option α → α → Option α → Prop) :
    (prev : Option α) → List α → (next : Option α) → Prop
  | _, [], _ => True
  | prev, item :: rest, next =>
      Between prev item (rest.head?.or next) ∧ Threaded Between (some item) rest next

section
variable {α : Type} {Between : Option α → α → Option α → Prop} {prev next : Option α}
  {items front back : List α}

/-- A thread says for every place in it what is around that place. -/
theorem threaded_iff : Threaded Between prev items next ↔ ∀ front item back,
    items = front ++ item :: back → Between (front.getLast?.or prev) item (back.head?.or next) := by
  induction items generalizing prev with
  | nil => simp [Threaded]
  | cons first rest ih =>
      rw [Threaded, ih]
      constructor
      · rintro ⟨here, there⟩ front item back same
        cases front with
        | nil =>
            cases same
            exact here
        | cons head front =>
            simp only [List.cons_append, List.cons.injEq] at same
            obtain ⟨rfl, same⟩ := same
            have between := there front item back same
            rw [List.getLast?_cons]
            cases last : front.getLast? <;> rw [last] at between <;> exact between
      · intro all
        refine ⟨all [] first rest rfl, fun front item back same => ?_⟩
        have between := all (first :: front) item back (by rw [same, List.cons_append])
        rw [List.getLast?_cons] at between
        cases last : front.getLast? <;> rw [last] at between <;> exact between

theorem threaded_append : Threaded Between prev (front ++ back) next ↔
    Threaded Between prev front (back.head?.or next) ∧
      Threaded Between (front.getLast?.or prev) back next := by
  induction front generalizing prev with
  | nil => simp [Threaded]
  | cons first front ih =>
      rw [List.cons_append, Threaded, Threaded, ih, and_assoc, List.head?_append, Option.or_assoc,
        List.getLast?_cons]
      cases front.getLast? <;> rfl

end

/-- Siblings in `parent` that follow each other, after `prev` and before `next`. -/
def Chained (document : Document) (parent : Option NodeId) :
    (prev : Option NodeId) → List NodeId → (next : Option NodeId) → Prop
  | _, [], _ => True
  | prev, id :: rest, next =>
      document.links? id = some ⟨prev, rest.head?.or next, parent⟩ ∧
        document.Chained parent (some id) rest next

variable {parent prev next : Option NodeId} {ids front back : List NodeId}

/-- Chains are threads along the links. -/
theorem chained_iff_threaded : document.Chained parent prev ids next ↔
    Threaded (fun prev id next => document.links? id = some ⟨prev, next, parent⟩) prev ids next := by
  induction ids generalizing prev with
  | nil => rfl
  | cons id rest ih => rw [Chained, Threaded, ih]

/-- A chain says for every place in it what is around that place. -/
theorem chained_iff : document.Chained parent prev ids next ↔ ∀ front id back,
    ids = front ++ id :: back →
      document.links? id = some ⟨front.getLast?.or prev, back.head?.or next, parent⟩ :=
  chained_iff_threaded.trans threaded_iff

theorem Chained.links? (chained : document.Chained parent prev (front ++ id :: back) next) :
    document.links? id = some ⟨front.getLast?.or prev, back.head?.or next, parent⟩ :=
  chained_iff.1 chained front id back rfl

theorem chained_append : document.Chained parent prev (front ++ back) next ↔
    document.Chained parent prev front (back.head?.or next) ∧
      document.Chained parent (front.getLast?.or prev) back next := by
  rw [chained_iff_threaded, chained_iff_threaded, chained_iff_threaded, threaded_append]

theorem Chained.links?_of_mem (chained : document.Chained parent prev ids next) (mem : id ∈ ids) :
    ∃ prev next, document.links? id = some ⟨prev, next, parent⟩ := by
  obtain ⟨front, back, rfl⟩ := List.append_of_mem mem
  exact ⟨_, _, chained.links?⟩

theorem Chained.live (chained : document.Chained parent prev ids next) (mem : id ∈ ids) :
    document.Live id := by
  obtain ⟨_, _, found⟩ := chained.links?_of_mem mem
  exact live_of_links? found

/-- A chain is not disturbed by changes elsewhere. -/
theorem Chained.congr (chained : document.Chained parent prev ids next)
    (same : ∀ id ∈ ids, document'.links? id = document.links? id) :
    document'.Chained parent prev ids next := by
  rw [chained_iff] at chained ⊢
  intro front id back split
  rw [same id (by simp [split]), chained front id back split]

theorem Chained.setPrev_of_notMem (chained : document.Chained parent prev ids next)
    (fresh : id ∉ ids) (prev' : Option NodeId) :
    (document.setPrev id prev').Chained parent prev ids next :=
  chained.congr fun _ mem => by rw [links?_setPrev, if_neg (ne_of_mem_of_not_mem mem fresh)]

theorem Chained.setNext_of_notMem (chained : document.Chained parent prev ids next)
    (fresh : id ∉ ids) (next' : Option NodeId) :
    (document.setNext id next').Chained parent prev ids next :=
  chained.congr fun _ mem => by rw [links?_setNext, if_neg (ne_of_mem_of_not_mem mem fresh)]

theorem Chained.joinAfter_of_notMem {other : Option NodeId}
    (chained : document.Chained parent prev ids next) (fresh : ∀ id ∈ ids, other ≠ some id)
    (list : Option NodeId) (last : NodeId) :
    (document.joinAfter list other last).Chained parent prev ids next :=
  chained.congr fun id mem => by rw [links?_joinAfter, if_neg (fresh id mem)]

/-- Only the first node of a chain knows what is before it. -/
theorem Chained.setPrev (chained : document.Chained parent prev (id :: back) next)
    (fresh : id ∉ back) (prev' : Option NodeId) :
    (document.setPrev id prev').Chained parent prev' (id :: back) next := by
  obtain ⟨here, there⟩ := chained
  refine ⟨?_, there.setPrev_of_notMem fresh prev'⟩
  rw [links?_setPrev, if_pos rfl, here]
  rfl

/-- Only the last node of a chain knows what is after it. -/
theorem Chained.setNext (chained : document.Chained parent prev (front ++ [id]) next)
    (fresh : id ∉ front) (next' : Option NodeId) :
    (document.setNext id next').Chained parent prev (front ++ [id]) next' := by
  rw [chained_append] at chained ⊢
  obtain ⟨there, here, -⟩ := chained
  refine ⟨there.setNext_of_notMem fresh next', ?_, True.intro⟩
  rw [links?_setNext, if_pos rfl, here]
  rfl

/-- The rest of a list comes after a new node. -/
theorem Chained.joinAfter (chained : document.Chained parent prev ids next) (nodup : ids.Nodup)
    (list : Option NodeId) (last : NodeId) :
    (document.joinAfter list ids.head? last).Chained parent (some last) ids next := by
  cases ids with
  | nil => exact True.intro
  | cons id rest => exact chained.setPrev (List.nodup_cons.1 nodup).1 (some last)

theorem links?_foldl_setParent (ids : List NodeId) :
    (ids.foldl (fun moved id => moved.setParent id parent) document).links? other =
      if other ∈ ids then (document.links? other).map ({ · with parent }) else
        document.links? other := by
  induction ids generalizing document with
  | nil => rfl
  | cons id rest ih =>
      rw [List.foldl_cons, ih, links?_setParent]
      by_cases same : other = id
      · simp only [same, if_true, List.mem_cons, true_or]
        split <;> cases document.links? id <;> rfl
      · simp only [same, if_false, List.mem_cons, false_or]

@[simp] theorem kind?_foldl_setParent (ids : List NodeId) :
    (ids.foldl (fun moved id => moved.setParent id parent) document).kind? other =
      document.kind? other := by
  induction ids generalizing document with
  | nil => rfl
  | cons id rest ih => rw [List.foldl_cons, ih, kind?_setParent]

@[simp] theorem size_foldl_setParent (ids : List NodeId) :
    (ids.foldl (fun moved id => moved.setParent id parent) document).slots.size =
      document.slots.size := by
  induction ids generalizing document with
  | nil => rfl
  | cons id rest ih => rw [List.foldl_cons, ih, size_setParent]

/-- The nodes of a chain are moved to another list all at once. -/
theorem Chained.setParents (chained : document.Chained parent prev ids next)
    (parent' : Option NodeId) :
    (ids.foldl (fun moved id => moved.setParent id parent') document).Chained parent' prev ids
      next := by
  rw [chained_iff] at chained ⊢
  intro front id back split
  rw [links?_foldl_setParent, if_pos (by simp [split]), chained front id back split]
  rfl

theorem Chained.setParents_of_notMem (chained : document.Chained parent prev ids next)
    {others : List NodeId} (fresh : ∀ id ∈ ids, id ∉ others) (parent' : Option NodeId) :
    (others.foldl (fun moved id => moved.setParent id parent') document).Chained parent prev ids
      next :=
  chained.congr fun id mem => by rw [links?_foldl_setParent, if_neg (fresh id mem)]

theorem chain_of_chained {count : Nat} (chained : document.Chained parent prev ids none)
    (enough : ids.length ≤ count) : document.chain count ids.head? = ids := by
  induction ids generalizing prev count with
  | nil => cases count <;> rfl
  | cons id rest ih =>
      cases count with
      | zero => cases enough
      | succ count =>
          obtain ⟨here, there⟩ := chained
          rw [List.head?_cons, chain, next?_eq, here]
          show id :: document.chain count (rest.head?.or none) = _
          rw [Option.or_none, ih there (Nat.le_of_succ_le_succ enough)]

end Document

end LiveStack
