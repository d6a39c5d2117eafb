import LiveStack.Proofs.Document.Outlining

/-!
# The tree of a document, and places in it

Without the numbers of its nodes, an outline is an ordered tree of words and lists. A place in such
a tree is what comes before it and after it in its own list, and the same for every list around it
(`Spot`). Where a document is arranged, the place behind a node is found by going down the lists
around it (`Framed`).
-/

namespace LiveStack

open Relation

/-- A word and how it reads, or a list of such. -/
inductive Tree where
  | word (reading : TokenClass) (text : String)
  | list (items : List Tree)

namespace Outline

mutual

/-- What a node shows. The head of a list shows nothing. -/
def trees : Outline → List Tree
  | .head _ => []
  | .word _ reading text => [.word reading text]
  | .list _ items => [.list (forest items)]

/-- What some nodes show, one after the other. -/
def forest : List Outline → List Tree
  | [] => []
  | item :: rest => item.trees ++ forest rest

end

@[simp] theorem forest_nil : forest [] = [] := rfl

@[simp] theorem forest_cons (item : Outline) (rest : List Outline) :
    forest (item :: rest) = item.trees ++ forest rest := rfl

@[simp] theorem trees_head (id : NodeId) : (Outline.head id).trees = [] := rfl

@[simp] theorem trees_word (id : NodeId) (reading : TokenClass) (text : String) :
    (Outline.word id reading text).trees = [.word reading text] := rfl

@[simp] theorem trees_list (id : NodeId) (items : List Outline) :
    (Outline.list id items).trees = [.list (forest items)] := rfl

theorem forest_append (items items' : List Outline) :
    forest (items ++ items') = forest items ++ forest items' := by
  induction items with
  | nil => rfl
  | cons item rest ih => rw [List.cons_append, forest_cons, ih, forest_cons, List.append_assoc]

end Outline

/-! ## Places -/

/-- What is beside a list. -/
structure Level where
  /-- Nearest first. -/
  before : List Tree
  after : List Tree

/-- A place between the items of a list, and the lists around it. -/
structure Spot where
  /-- Nearest first. -/
  before : List Tree
  after : List Tree
  /-- Innermost first. -/
  around : List Level

/-- The items of the list that the list of `items` is in. -/
def Level.enclose (level : Level) (items : List Tree) : List Tree :=
  level.before.reverse ++ .list items :: level.after

/-- The whole tree that the place is in. -/
def Spot.program (spot : Spot) : List Tree :=
  spot.around.foldl (fun items level => level.enclose items) (spot.before.reverse ++ spot.after)

namespace Outline

mutual

/-- The place right behind the node `target`, which is looked for in a node. -/
def spotIn? (target : NodeId) (around : List Level) : Outline → Option Spot
  | .head _ | .word _ _ _ => none
  | .list _ items => spotFrom? target [] around items

/-- The place right behind the node `target`, which is looked for among nodes and in them. What
comes before the nodes is `before`. -/
def spotFrom? (target : NodeId) (before : List Tree) (around : List Level) :
    List Outline → Option Spot
  | [] => none
  | item :: rest =>
      let passed := item.trees ++ before
      if item.id = target then some ⟨passed, forest rest, around⟩
      else (item.spotIn? target (⟨before, forest rest⟩ :: around)).or
        (spotFrom? target passed around rest)

end

variable {target : NodeId} {before : List Tree} {around : List Level} {item : Outline}
  {rest : List Outline}

theorem spotFrom?_cons_self (same : item.id = target) :
    spotFrom? target before around (item :: rest) =
      some ⟨item.trees ++ before, forest rest, around⟩ := by
  rw [spotFrom?, if_pos same]

section
variable {id : NodeId} (differs : id ≠ target)
include differs

theorem spotFrom?_head :
    spotFrom? target before around (.head id :: rest) = spotFrom? target before around rest := by
  rw [spotFrom?, Outline.id, if_neg differs]
  rfl

theorem spotFrom?_word {reading : TokenClass} {text : String} :
    spotFrom? target before around (.word id reading text :: rest) =
      spotFrom? target (.word reading text :: before) around rest := by
  rw [spotFrom?, Outline.id, if_neg differs]
  rfl

/-- A list that is not the node and does not hold it is passed. -/
theorem spotFrom?_list {inner : List Outline}
    (apart : spotFrom? target [] (⟨before, forest rest⟩ :: around) inner = none) :
    spotFrom? target before around (.list id inner :: rest) =
      spotFrom? target (.list (forest inner) :: before) around rest := by
  rw [spotFrom?, Outline.id, if_neg differs, spotIn?, apart, Option.none_or]
  rfl

theorem spotFrom?_list_of_some {inner : List Outline} {spot : Spot}
    (found : spotFrom? target [] (⟨before, forest rest⟩ :: around) inner = some spot) :
    spotFrom? target before around (.list id inner :: rest) = some spot := by
  rw [spotFrom?, Outline.id, if_neg differs, spotIn?, found, Option.some_or]

end

end Outline

namespace Document

variable {document document' : Document} {kids kids' : Contents} {list below id target : NodeId}
  {ids front back : List NodeId} {items items' : List Outline} {trees trees' before : List Tree}
  {around : List Level}

/-! ## What nodes show -/

/-- The nodes show the trees. -/
def Shown (document : Document) (kids : Contents) (ids : List NodeId) (trees : List Tree) : Prop :=
  ∃ items, document.Outlined kids ids items ∧ Outline.forest items = trees

namespace Shown

theorem nil : document.Shown kids [] [] := ⟨[], .nil, rfl⟩

theorem ofHead (kind : document.kind? id = some .head) : document.Shown kids [id] [] :=
  ⟨_, .head kind .nil, rfl⟩

theorem ofWord {reading : TokenClass} {text : String}
    (kind : document.kind? id = some (.word reading text)) :
    document.Shown kids [id] [.word reading text] :=
  ⟨_, .word kind .nil, rfl⟩

theorem ofList (isList : document.isList id = true) (inside : document.Shown kids (kids id) trees) :
    document.Shown kids [id] [.list trees] := by
  obtain ⟨first, last, kind⟩ := isList_iff.1 isList
  obtain ⟨items, shown, rfl⟩ := inside
  exact ⟨_, .list kind shown .nil, rfl⟩

theorem append (shown : document.Shown kids front trees)
    (shown' : document.Shown kids back trees') :
    document.Shown kids (front ++ back) (trees ++ trees') := by
  obtain ⟨items, shown, rfl⟩ := shown
  obtain ⟨items', shown', rfl⟩ := shown'
  exact ⟨items ++ items', shown.append shown', Outline.forest_append items items'⟩

theorem congr (shown : document.Shown kids ids trees)
    (same : ∀ start ∈ ids, ∀ id, ReflTransGen kids.Holds start id →
      document'.kind? id = document.kind? id ∧ kids' id = kids id) :
    document'.Shown kids' ids trees := by
  obtain ⟨items, shown, rfl⟩ := shown
  exact ⟨items, shown.congr same, rfl⟩

theorem cons (shown : document.Shown kids (id :: ids) trees) :
    ∃ first rest, trees = first ++ rest ∧ document.Shown kids [id] first ∧
      document.Shown kids ids rest := by
  obtain ⟨items, shown, rfl⟩ := shown
  cases shown with
  | head kind rest => exact ⟨_, _, rfl, .ofHead kind, ⟨_, rest, rfl⟩⟩
  | word kind rest => exact ⟨_, _, rfl, .ofWord kind, ⟨_, rest, rfl⟩⟩
  | list kind inside rest =>
      exact ⟨_, _, rfl, .ofList (isList_iff.2 ⟨_, _, kind⟩) ⟨_, inside, rfl⟩, ⟨_, rest, rfl⟩⟩

/-- What is shown is parted where the nodes are. -/
theorem exists_append (shown : document.Shown kids (front ++ back) trees) :
    ∃ first second, trees = first ++ second ∧ document.Shown kids front first ∧
      document.Shown kids back second := by
  induction front generalizing trees with
  | nil => exact ⟨[], trees, rfl, .nil, shown⟩
  | cons id front ih =>
      obtain ⟨first, rest, rfl, here, shown⟩ := shown.cons
      obtain ⟨second, third, rfl, shown, shown'⟩ := ih shown
      exact ⟨first ++ second, third, (List.append_assoc ..).symm, here.append shown, shown'⟩

theorem eq_nil (shown : document.Shown kids [] trees) : trees = [] := by
  obtain ⟨items, shown, rfl⟩ := shown
  cases shown
  rfl

/-- There is one way to show nodes. -/
theorem unique (shown : document.Shown kids ids trees) (shown' : document.Shown kids ids trees') :
    trees = trees' := by
  obtain ⟨items, shown, rfl⟩ := shown
  obtain ⟨items', shown', rfl⟩ := shown'
  rw [shown.unique shown']

/-- A node shows nothing if it is a head, a word, or a list of what its nodes show. -/
theorem single (shown : document.Shown kids [id] trees) :
    (document.kind? id = some .head ∧ trees = []) ∨
      (∃ reading text, document.kind? id = some (.word reading text) ∧
        trees = [.word reading text]) ∨
      ∃ inner, document.isList id = true ∧ document.Shown kids (kids id) inner ∧
        trees = [.list inner] := by
  obtain ⟨items, shown, rfl⟩ := shown
  cases shown with
  | head kind rest =>
      cases rest
      exact .inl ⟨kind, rfl⟩
  | word kind rest =>
      cases rest
      exact .inr (.inl ⟨_, _, kind, rfl⟩)
  | list kind inside rest =>
      cases rest
      exact .inr (.inr ⟨_, isList_iff.2 ⟨_, _, kind⟩, ⟨_, inside, rfl⟩, rfl⟩)

theorem exists_tree (shown : document.Shown kids [id] trees)
    (notHead : document.kind? id ≠ some .head) : ∃ tree, trees = [tree] := by
  rcases shown.single with ⟨kind, -⟩ | ⟨_, _, -, rfl⟩ | ⟨_, -, -, rfl⟩
  · exact absurd kind notHead
  · exact ⟨_, rfl⟩
  · exact ⟨_, rfl⟩

theorem eq_nil_of_head (shown : document.Shown kids [id] trees)
    (kind : document.kind? id = some .head) : trees = [] :=
  shown.unique (.ofHead kind)

/-- The nodes of a list that another list is in, from what is shown before that and behind it. -/
theorem exists_outlined {outer inner : NodeId} {trees' : List Tree}
    (before : document.Shown kids front trees) (after : document.Shown kids back trees')
    (isList : document.isList inner = true) (split : kids outer = front ++ inner :: back)
    (inside : document.Outlined kids (kids inner) items) :
    ∃ nearer further, document.Outlined kids front nearer ∧
      document.Outlined kids (kids outer) (nearer ++ .list inner items :: further) ∧
      Outline.forest nearer = trees ∧ Outline.forest further = trees' := by
  obtain ⟨first, last, kind⟩ := isList_iff.1 isList
  obtain ⟨nearer, shown, rfl⟩ := before
  obtain ⟨further, shown', rfl⟩ := after
  exact ⟨nearer, further, shown, split ▸ shown.append (.list kind inside shown'), rfl, rfl⟩

end Shown

theorem Arranged.exists_shown (arranged : document.Arranged kids []) (list : NodeId) :
    ∃ trees, document.Shown kids (kids list) trees := by
  cases split : kids list with
  | nil => exact ⟨[], .nil⟩
  | cons id rest =>
      have shown := arranged.outlineFrom_outlined (show kids list = [] ++ id :: rest from split)
      exact ⟨_, _, shown, rfl⟩

/-- A list with nothing in it but its head shows as empty. -/
theorem Arranged.shown_empty (arranged : document.Arranged kids []) {head : NodeId}
    (only : kids list = [head]) : document.Shown kids [list] [.list []] :=
  .ofList (arranged.isList_of_mem (show head ∈ kids list by simp [only]))
    ⟨_, arranged.outlined_head only, rfl⟩

/-! ## The lists around a list -/

/-- What is beside the list, and beside every list around it, innermost first. -/
inductive Framed (document : Document) (kids : Contents) : NodeId → List Level → Prop
  | root : Framed document kids root []
  | inside {outer inner : NodeId} {front back : List NodeId} {level : Level} {around : List Level}
      (framed : Framed document kids outer around) (isList : document.isList inner = true)
      (split : kids outer = front ++ inner :: back)
      (before : document.Shown kids front level.before.reverse)
      (after : document.Shown kids back level.after) :
      Framed document kids inner (level :: around)

theorem Arranged.exists_framed (arranged : document.Arranged kids [])
    (isList : document.isList list = true) : ∃ around, document.Framed kids list around := by
  have reaches := arranged.reached_from_root (live_of_isList isList)
  induction reaches with
  | refl => exact ⟨[], .root⟩
  | @tail outer inner _ held ih =>
      obtain ⟨around, framed⟩ := ih (arranged.isList_of_mem held)
      obtain ⟨front, back, split⟩ := List.append_of_mem held
      obtain ⟨trees, shown⟩ := arranged.exists_shown outer
      rw [split] at shown
      obtain ⟨before, rest, -, shown, shown'⟩ := shown.exists_append
      obtain ⟨_, after, -, -, shown'⟩ := shown'.cons
      rw [← before.reverse_reverse] at shown
      exact ⟨⟨before.reverse, after⟩ :: around, framed.inside isList split shown shown'⟩

namespace Framed

/-- What changes only in a list and in what it holds leaves all around it alone. -/
theorem congr (framed : document.Framed kids list around) (arranged : document.Arranged kids [])
    (isList : document'.isList list = true)
    (same : ∀ id, document.Live id → ¬ ReflTransGen kids.Holds list id →
      document'.kind? id = document.kind? id ∧ kids' id = kids id) :
    document'.Framed kids' list around := by
  induction framed with
  | root => exact .root
  | @inside outer inner front back level around framed _ split before after ih =>
      have held : inner ∈ kids outer := by simp [split]
      obtain ⟨⟨kind, contents⟩, beside⟩ := arranged.above_and_beside split same
      have known : document'.isList outer = true := by
        rw [Document.isList, first?, kind]
        exact arranged.isList_of_mem held
      refine .inside (ih known fun id live out => same id live fun reaches =>
        out (.head held reaches)) isList (contents.trans split) (before.congr ?_) (after.congr ?_)
      · exact fun start mem => beside start (List.mem_append_left _ mem)
      · exact fun start mem => beside start (List.mem_append_right _ mem)

/-- The whole tree is what a list shows in all that is around it. -/
theorem foldl_enclose (framed : document.Framed kids list around)
    (arranged : document.Arranged kids []) (shown : document.Shown kids (kids list) trees) :
    around.foldl (fun items level => level.enclose items) trees =
      Outline.forest document.outline := by
  induction framed generalizing trees with
  | root => exact shown.unique ⟨_, arranged.outline_outlined, rfl⟩
  | @inside outer inner front back level around framed isList split before after ih =>
      rw [List.foldl_cons]
      refine ih ?_
      rw [split]
      exact before.append ((Shown.ofList isList shown).append after)

end Framed

/-! ## Finding a place -/

theorem ne_of_not_reaches (apart : ¬ ReflTransGen kids.Holds id target) : id ≠ target := by
  rintro rfl
  exact apart .refl

/-- A node is not found where it is not. -/
theorem Outlined.spotFrom?_eq_none (shown : document.Outlined kids ids items)
    (apart : ∀ start ∈ ids, ¬ ReflTransGen kids.Holds start target) :
    Outline.spotFrom? target before around items = none := by
  induction shown generalizing before around with
  | nil => rw [Outline.spotFrom?]
  | @head id ids items kind rest ih =>
      obtain ⟨here, apart⟩ := List.forall_mem_cons.1 apart
      rw [Outline.spotFrom?_head (ne_of_not_reaches here), ih apart]
  | @word id ids items reading text kind rest ih =>
      obtain ⟨here, apart⟩ := List.forall_mem_cons.1 apart
      rw [Outline.spotFrom?_word (ne_of_not_reaches here), ih apart]
  | @list id first last ids inner items kind inside rest ih ih' =>
      obtain ⟨here, apart⟩ := List.forall_mem_cons.1 apart
      have within : Outline.spotFrom? target [] (⟨before, Outline.forest items⟩ :: around) inner =
          none := ih fun start mem reaches => here (.head mem reaches)
      rw [Outline.spotFrom?_list (ne_of_not_reaches here) within, ih' apart]

/-- Nodes that are not the one and do not hold it are passed. -/
theorem Outlined.spotFrom?_append (shown : document.Outlined kids ids items)
    (apart : ∀ start ∈ ids, ¬ ReflTransGen kids.Holds start target) :
    Outline.spotFrom? target before around (items ++ items') =
      Outline.spotFrom? target ((Outline.forest items).reverse ++ before) around items' := by
  induction shown generalizing before with
  | nil => rfl
  | @head id ids items kind rest ih =>
      obtain ⟨here, apart⟩ := List.forall_mem_cons.1 apart
      rw [List.cons_append, Outline.spotFrom?_head (ne_of_not_reaches here), ih apart]
      simp
  | @word id ids items reading text kind rest ih =>
      obtain ⟨here, apart⟩ := List.forall_mem_cons.1 apart
      rw [List.cons_append, Outline.spotFrom?_word (ne_of_not_reaches here), ih apart]
      simp
  | @list id first last ids inner items kind inside rest ih ih' =>
      obtain ⟨here, apart⟩ := List.forall_mem_cons.1 apart
      have within : Outline.spotFrom? target []
          (⟨before, Outline.forest (items ++ items')⟩ :: around) inner = none :=
        inside.spotFrom?_eq_none fun start mem reaches => here (.head mem reaches)
      rw [List.cons_append, Outline.spotFrom?_list (ne_of_not_reaches here) within,
        ih' apart]
      simp

/-- A node in a list is found by going down the lists around that. -/
theorem Framed.spotFrom?_outline (framed : document.Framed kids list around)
    (arranged : document.Arranged kids []) (shown : document.Outlined kids (kids list) items)
    (mem : target ∈ kids below) (down : ReflTransGen kids.Holds list below) {spot : Spot}
    (found : Outline.spotFrom? target [] around items = some spot) :
    Outline.spotFrom? target [] [] document.outline = some spot := by
  induction framed generalizing items with
  | root => rwa [← shown.unique arranged.outline_outlined]
  | @inside outer inner front back level around framed isList split before after ih =>
      have held : inner ∈ kids outer := by simp [split]
      obtain ⟨nearest, following⟩ := level
      obtain ⟨nearer, further, passed, whole, same, rfl⟩ :=
        before.exists_outlined after isList split shown
      refine ih whole (.head held down) ?_
      -- what comes before the list does not hold the node, and the list is not the node
      have apart : ∀ start ∈ front, ¬ ReflTransGen kids.Holds start target :=
        fun start mem' reaches => arranged.apart_of_split split (List.mem_append_left _ mem')
          reaches (down.tail mem)
      have differs : inner ≠ target := by
        rintro rfl
        exact arranged.acyclic mem down
      rw [passed.spotFrom?_append apart, same, List.reverse_reverse, List.append_nil,
        Outline.spotFrom?_list_of_some differs found]

/-- The place right behind a node of a list. -/
theorem Framed.spotFrom?_of_split (framed : document.Framed kids list around)
    (arranged : document.Arranged kids []) (split : kids list = front ++ back)
    (ends : front.getLast? = some target) (shown : document.Shown kids front trees)
    (shown' : document.Shown kids back trees') :
    Outline.spotFrom? target [] [] document.outline = some ⟨trees.reverse, trees', around⟩ := by
  -- the node is passed last, with what it shows
  obtain ⟨init, rfl⟩ := List.getLast?_eq_some_iff.1 ends
  have atTarget : kids list = init ++ target :: back := by simp [split]
  obtain ⟨_, _, rfl, ⟨items, shown₁, rfl⟩, items₂, shown₂, rfl⟩ := shown.exists_append
  obtain ⟨items', shown₃, rfl⟩ := shown'
  have whole : document.Outlined kids (kids list) (items ++ (items₂ ++ items')) :=
    atTarget ▸ shown₁.append (shown₂.append shown₃)
  refine framed.spotFrom?_outline arranged whole (by simp [split]) .refl ?_
  have apart : ∀ start ∈ init, ¬ ReflTransGen kids.Holds start target :=
    fun start mem reaches => arranged.apart_of_split atTarget (List.mem_append_left _ mem)
      reaches .refl
  rw [shown₁.spotFrom?_append apart]
  cases shown₂ with
  | head _ rest | word _ rest | list _ _ rest =>
      cases rest
      refine (Outline.spotFrom?_cons_self ?_).trans ?_
      · rfl
      · simp

/-! ## What a change leaves alone -/

namespace Spares

variable {run : List NodeId} (spares : document.Spares document' kids kids' list run)
  (arranged : document.Arranged kids []) (inside : ∀ id ∈ run, id ∈ kids list)

include spares arranged inside

theorem framed (isList : document'.isList list = true) (framed : document.Framed kids list around) :
    document'.Framed kids' list around := by
  refine framed.congr arranged isList fun id live out => spares id live ?_ ?_
  · rintro rfl
    exact out .refl
  · exact fun start mem reaches => out (.head (inside start mem) reaches)

theorem shown (others : ∀ id ∈ ids, id ∈ kids list ∧ id ∉ run)
    (shown : document.Shown kids ids trees) : document'.Shown kids' ids trees := by
  obtain ⟨items, shown, rfl⟩ := shown
  exact ⟨items, spares.outlined arranged inside others shown, rfl⟩

end Spares

/-- Where nothing was taken out, the nodes of the list show as before. -/
theorem Spares.shown_of_nil (spares : document.Spares document' kids kids' list [])
    (arranged : document.Arranged kids []) (held : ∀ id ∈ ids, id ∈ kids list)
    (shown : document.Shown kids ids trees) : document'.Shown kids' ids trees :=
  spares.shown arranged (List.forall_mem_nil _)
    (fun id mem => ⟨held id mem, List.not_mem_nil⟩) shown

end Document

end LiveStack
