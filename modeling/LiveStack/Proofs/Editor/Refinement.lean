import LiveStack.Proofs.Editor.Spots

/-!
# Every edit is an edit of a tree

What is done to a run of siblings is done to what they show: a selection is removed or put into a
list of its own, and a list makes way for its items. With the edits at a single place, all edits of
an editor are edits of the tree that it shows, whatever was done in it before.
-/

namespace LiveStack

open Relation

open Document (root Parted)

namespace Document

variable {document : Document} {kids : Contents} {list outer head prev first last : NodeId}
  {ids front run back rest : List NodeId} {trees : List Tree}

/-! ## Putting a run into a list, and taking a list away -/

/-- What a node shows. -/
def shows (document : Document) (id : NodeId) : List Tree :=
  Outline.forest ((document.outlineFrom id).take 1)

theorem Shown.flatMap_shows (shown : document.Shown kids ids trees)
    (arranged : document.Arranged kids []) (inside : ∀ id ∈ ids, id ∈ kids list) :
    ids.flatMap document.shows = trees := by
  induction ids generalizing trees with
  | nil => exact shown.eq_nil.symm
  | cons id ids ih =>
      obtain ⟨held, inside⟩ := List.forall_mem_cons.1 inside
      obtain ⟨here, others, rfl, shown, shown'⟩ := shown.cons
      obtain ⟨front, back, split⟩ := List.append_of_mem held
      have whole := arranged.outlineFrom_outlined split
      have single : document.Outlined kids [id] ((document.outlineFrom id).take 1) := by
        generalize document.outlineFrom id = items at whole
        cases whole with
        | head kind _ => exact .head kind .nil
        | word kind _ => exact .word kind .nil
        | list kind inner _ => exact .list kind inner .nil
      rw [List.flatMap_cons, ih shown' inside, shown.unique ⟨_, single, rfl⟩]
      rfl

/-- A run goes into a new list in the place where it was, and all else is left alone. -/
theorem Arranged.exists_quoted (arranged : document.Arranged kids [])
    (parted : Parted front run back prev first last) (split : kids list = front ++ run ++ back)
    (shown : document.Shown kids run trees) :
    ∃ fresh inserted head kids',
      (document.cutRun (some list) prev first last back.head?).insertListAfter prev =
        (fresh, inserted) ∧
      inserted.first? fresh = some head ∧
      (inserted.spliceRunAfter head first last).Arranged kids' [] ∧
      kids' list = front ++ [fresh] ++ back ∧ kids' fresh = head :: run ∧
      (¬ document.Live fresh ∧ ¬ document.Live head) ∧
      document.Spares (inserted.spliceRunAfter head first last) kids kids' list [] ∧
      (inserted.spliceRunAfter head first last).Shown kids' [fresh] [.list trees] := by
  -- the run is cut out, a list is made in its place, and the run is put behind the head of that
  have change := arranged.rearranged_cutRun parted split
  have cut := change.result arranged
  rw [List.append_nil] at cut
  have chained := arranged.chained list
  rw [split] at chained
  have held : ∀ id ∈ run, id ∈ kids list := fun id mem => by simp [split, mem]
  have reaches := arranged.root_reaches_cut split
    (arranged.isList_of_mem (held first parted.first_mem))
  obtain ⟨inserted, head, kids', made, arranged', inner, contents, -, placed, spares, unborn⟩ :=
    cut.quoteRun parted Contents.set_self (chained_cutRun parted chained).2 reaches
  have known := arranged'.first?_of_cons inner
  have unborn' : ¬ document.Live
      (document.cutRun (some list) prev first last back.head?).slots.size := by
    rw [← change.live_iff arranged]
    exact not_live_size
  rw [change.live_iff arranged] at unborn
  generalize (document.cutRun (some list) prev first last back.head?).slots.size = fresh at *
  have differs := arranged'.ne_of_mem (show fresh ∈ kids' list by simp [contents])
  have around : (kids'.set fresh ([head] ++ run ++ [])) list = front ++ [fresh] ++ back := by
    rw [Contents.set_of_ne differs.symm, contents]
  have within : (kids'.set fresh ([head] ++ run ++ [])) fresh = head :: run := by simp
  -- of the nodes that were there, only the list of the run holds others than before
  have spares' : document.Spares (inserted.spliceRunAfter head first last) kids
      (kids'.set fresh ([head] ++ run ++ [])) list [] := by
    intro id live differs _
    obtain ⟨kind, same⟩ := spares id ((change.live_iff arranged).2 live) differs
      (List.forall_mem_nil _)
    exact ⟨kind.trans (change.kinds id differs), same.trans (Contents.set_of_ne differs)⟩
  have mem : head ∈ (kids'.set fresh ([head] ++ run ++ [])) fresh := by simp
  have kind := (placed.heads mem).2 (by rw [within]; rfl)
  refine ⟨fresh, inserted, head, _, made, known, placed, around, within, ⟨unborn', unborn⟩, spares',
    ?_⟩
  refine .ofList (placed.isList_of_mem mem) ?_
  rw [within]
  exact (Shown.ofHead kind).append (spares'.shown_of_nil arranged held shown)

/-- A list that makes way for its children leaves all but itself and its head alone. -/
theorem Arranged.exists_unquoted (arranged : document.Arranged kids [])
    (parted : Parted front [list] back prev list list)
    (split : kids outer = front ++ [list] ++ back)
    (split' : kids list = head :: rest) (starts : rest.head? = some first)
    (ends : rest.getLast? = some last) (shown : document.Shown kids (kids list) trees) :
    let cut := document.cutRun (some outer) prev list list back.head?
    let unquoted := (cut.spliceRunAfter prev first last).freeShell list
    ∃ kids', unquoted.Arranged kids' [] ∧ kids' outer = front ++ rest ++ back ∧
      (∀ id, id ≠ outer → id ≠ list → id ≠ head →
        unquoted.kind? id = document.kind? id ∧ kids' id = kids id) ∧
      document.Spares unquoted kids kids' outer [list] ∧ unquoted.Shown kids' rest trees := by
  intro cut unquoted
  have held : list ∈ kids outer := by simp [split]
  have child : ∀ {id}, id ∈ head :: rest → id ∈ kids list := fun mem => split' ▸ mem
  have change := arranged.rearranged_cutRun parted split
  have loose := change.result arranged
  rw [List.append_nil] at loose
  have reaches := arranged.root_reaches_cut split (arranged.isList_of_mem held)
  have inner : (kids.set outer (front ++ back)) list = head :: rest := by
    rw [Contents.set_of_ne (arranged.ne_of_mem held), split']
  obtain ⟨kids', arranged', contents, kept, -⟩ :=
    loose.unquoteList List.not_mem_nil parted Contents.set_self inner starts ends
      (loose.apart_of_root List.mem_cons_self reaches)
  have same : ∀ id, id ≠ outer → id ≠ list → id ≠ head →
      unquoted.kind? id = document.kind? id ∧ kids' id = kids id := by
    intro id notOuter notList notHead
    obtain ⟨kind, inside⟩ := kept id notOuter notList notHead
    exact ⟨kind.trans (change.kinds id notOuter), inside.trans (Contents.set_of_ne notOuter)⟩
  refine ⟨kids', arranged', contents, same, fun id _ notOuter out => ?_, ?_⟩
  · have out := out list List.mem_cons_self
    refine same id notOuter ?_ ?_
    · rintro rfl
      exact out .refl
    · rintro rfl
      exact out (.single (child List.mem_cons_self))
  · rw [split'] at shown
    obtain ⟨_, others, rfl, here, shown⟩ := shown.cons
    have kind := (arranged.heads (child List.mem_cons_self)).2 (by rw [split']; rfl)
    rw [here.eq_nil_of_head kind, List.nil_append]
    -- What the children hold is neither of the three nodes that change, since the lists form trees.
    refine shown.congr fun start mem id down => same id ?_ ?_ ?_
    · rintro rfl
      exact arranged.acyclic held (.head (child (List.mem_cons_of_mem _ mem)) down)
    · rintro rfl
      exact arranged.acyclic (child (List.mem_cons_of_mem _ mem)) down
    · rintro rfl
      exact arranged.apart_of_split (show kids list = [] ++ id :: rest from split') mem down .refl

end Document

namespace Editor

variable {editor : Editor} {kids : Contents} {list : NodeId} {front run back : List NodeId}
  {spot rest : Spot} {trees : List Tree}

/-- A list under the cursor is taken out, its children go where it was, and its shell goes. -/
theorem unquote_eq {head prev : NodeId} {rest : List NodeId}
    (arranged : editor.document.Arranged kids [])
    (parted : Parted front [editor.cursor] back prev editor.cursor editor.cursor)
    (split : kids list = front ++ [editor.cursor] ++ back)
    (inner : kids editor.cursor = head :: rest) :
    let cut := editor.document.cutRun (some list) prev editor.cursor editor.cursor back.head?
    editor.unquote = (true, match rest.head?, rest.getLast? with
      | some first, some last =>
          { document := (cut.spliceRunAfter prev first last).freeShell editor.cursor
            cursor := last }
      | _, _ => { document := cut.freeShell editor.cursor, cursor := prev }) := by
  have isList := arranged.isList_of_mem (show head ∈ kids editor.cursor by simp [inner])
  simp only [Editor.unquote, isList, Bool.not_true, Bool.false_eq_true, if_false, selectNone,
    arranged.children isList, inner, List.tail_cons, arranged.unlinkRun_eq parted split]
  cases rest.head? <;> cases rest.getLast? <;> rfl

namespace Stands

variable (stands : editor.Stands kids list front back spot)

include stands

/-- There is no list to take away. -/
theorem isList_eq_false (other : ∀ items before, spot.before ≠ .list items :: before) :
    editor.document.isList editor.cursor = false := by
  cases before : spot.before with
  | nil =>
      obtain ⟨-, kind⟩ := stands.of_nil before
      rw [Document.isList, Document.first?, kind]
      rfl
  | cons tree rest =>
      obtain ⟨_, _, -, -, -, here⟩ := stands.of_cons before
      rcases here.single with ⟨-, same⟩ | ⟨_, _, kind, -⟩ | ⟨inner, -, -, same⟩
      · cases same
      · rw [Document.isList, Document.first?, kind]
        rfl
      · cases same
        exact absurd before (other inner rest)

/-- The cursor is on a list: its items take its place. -/
theorem unquote_list {items before after : List Tree} {around : List Level}
    (same : spot = ⟨.list items :: before, after, around⟩) :
    Does editor.unquote (true, ⟨items.reverse ++ before, after, around⟩) := by
  subst same
  obtain ⟨-, isList, inside⟩ := stands.within rfl
  obtain ⟨init, prev, rfl, last, shown, -⟩ := stands.of_cons rfl
  obtain ⟨arranged, framed, split, ends, -, shown'⟩ := stands
  have parted : Parted init [editor.cursor] back prev editor.cursor editor.cursor :=
    ⟨split ▸ arranged.nodup list, last, rfl, rfl⟩
  obtain ⟨head, rest, inner, kind, -⟩ := arranged.exists_head isList
  rw [unquote_eq arranged parted split inner]
  cases rest with
  | nil =>
      -- the list is empty, so only its shell goes
      have cut := (arranged.rearranged_cutRun parted split).result arranged
      rw [List.append_nil] at cut
      have shell : (kids.set list (init ++ back)) editor.cursor = [head] := by
        rw [Contents.set_of_ne (arranged.ne_of_mem (by simp [split])), inner]
      obtain ⟨kids', stands'⟩ :=
        stands_of_removed arranged framed parted split shown shown' (cut.freeShell_freed shell)
      rw [inner] at inside
      obtain rfl := inside.eq_nil_of_head kind
      exact ⟨rfl, stands'.isAt⟩
  | cons first rest =>
      have stops : (first :: rest).getLast? = some ((first :: rest).getLast (by simp)) :=
        List.getLast?_eq_some_getLast _
      generalize (first :: rest).getLast (by simp) = last' at stops
      obtain ⟨kids', arranged', contents, -, spares, shown''⟩ :=
        arranged.exists_unquoted parted split inner rfl stops inside
      simp only [List.head?_cons, stops]
      have gone : ∀ id ∈ [editor.cursor], id ∈ kids list := by simp [split]
      -- the cursor ends on the last of the items
      have ends' : (init ++ first :: rest).getLast? = some last' := by
        rw [List.getLast?_append, stops]
        rfl
      have stands' := stands_of_spares arranged framed shown shown' gone (parted.beside split)
        spares arranged' contents ends' shown''
      exact ⟨rfl, stands'.isAt⟩

/-- A list under the cursor makes way for its items. -/
theorem unquote : Does editor.unquote spot.unquote := by
  have stays (other : ∀ items before, spot.before ≠ .list items :: before) :
      Does editor.unquote (false, spot) := by
    simp only [Editor.unquote, stands.isList_eq_false other, Bool.not_false, if_true]
    exact ⟨rfl, stands.isAt⟩
  obtain ⟨before, after, around⟩ := spot
  cases before with
  | nil => exact stays (by simp)
  | cons tree before =>
      cases tree with
      | word reading text => exact stays (by simp)
      | list items => exact stands.unquote_list rfl

end Stands

/-! ## Selected runs -/

/-- The selection is a run of nodes that show the trees, and `rest` is the place before it. -/
structure Chosen (editor : Editor) (kids : Contents) (list : NodeId) (front run back : List NodeId)
    (span : Span) (prev : NodeId) (trees : List Tree) (rest : Spot) : Prop where
  selection : editor.selection? = some span
  arranged : editor.document.Arranged kids []
  framed : editor.document.Framed kids list rest.around
  split : kids list = front ++ run ++ back
  parted : Parted front run back prev span.first span.last
  before : editor.document.Shown kids front rest.before.reverse
  inside : editor.document.Shown kids run trees
  after : editor.document.Shown kids back rest.after

namespace Chosen

variable {span : Span} {prev : NodeId}
  (chosen : editor.Chosen kids list front run back span prev trees rest)

include chosen

theorem detachSelection : editor.detachSelection = (some span,
    { document := editor.document.cutRun (some list) prev span.first span.last back.head?,
      cursor := prev }) := by
  simp only [Editor.detachSelection, chosen.selection, selectNone,
    chosen.arranged.unlinkRun_eq chosen.parted chosen.split]

theorem run_eq : editor.document.run span.first span.last = run :=
  chosen.arranged.run_of_split chosen.split chosen.parted.starts chosen.parted.ends

theorem flatMap_shows : run.flatMap editor.document.shows = trees :=
  chosen.inside.flatMap_shows chosen.arranged fun id mem =>
    show id ∈ kids list by simp [chosen.split, mem]

/-- The first of the run is no head, so the run shows something. -/
theorem trees_ne_nil : trees ≠ [] := by
  obtain ⟨-, arranged, -, split, parted, -, inside, -⟩ := chosen
  obtain ⟨others, rfl⟩ := List.head?_eq_some_iff.1 parted.starts
  have atFirst : kids list = front ++ span.first :: (others ++ back) := by simp [split]
  have behind : front ≠ [] := List.ne_nil_of_mem parted.prev_mem
  obtain ⟨here, rest, rfl, shown, -⟩ := inside.cons
  obtain ⟨tree, rfl⟩ := shown.exists_tree (arranged.kind?_ne_head atFirst behind)
  exact List.cons_ne_nil _ _

theorem deleteSelection : Does editor.deleteSelection (true, rest) := by
  have detached := chosen.detachSelection
  obtain ⟨-, arranged, framed, split, parted, before, -, after⟩ := chosen
  have cut := (arranged.rearranged_cutRun parted split).result arranged
  rw [List.append_nil] at cut
  have chained := arranged.chained list
  rw [split] at chained
  have freed := cut.freeRun_freed parted.nodup_run (fun _ mem => mem)
    (Document.chained_cutRun parted chained).2 parted.starts parted.ends
  obtain ⟨kids', stands⟩ := stands_of_removed arranged framed parted split before after freed
  rw [Editor.deleteSelection, detached]
  exact ⟨rfl, stands.isAt⟩

/-- The run goes into a new list in its place, with the cursor on that. -/
theorem exists_quoted : ∃ fresh quoted head kids',
    editor.quoteSelection = (some fresh, { document := quoted, cursor := fresh }) ∧
      quoted.Arranged kids' [] ∧ kids' list = front ++ [fresh] ++ back ∧ kids' fresh = head :: run ∧
      (¬ editor.document.Live fresh ∧ ¬ editor.document.Live head) ∧
      editor.document.Spares quoted kids kids' list [] ∧
      quoted.Shown kids' [fresh] [.list trees] := by
  have detached := chosen.detachSelection
  obtain ⟨-, arranged, -, split, parted, -, inside, -⟩ := chosen
  obtain ⟨fresh, inserted, head, kids', made, known, rest⟩ :=
    arranged.exists_quoted parted split inside
  refine ⟨fresh, _, head, kids', ?_, rest⟩
  simp only [Editor.quoteSelection, detached, made, known, Option.getD_some]

theorem quoteSelection :
    editor.quoteSelection.1 = some editor.quoteSelection.2.cursor ∧
      editor.quoteSelection.2.At (rest.insertQuoted trees) := by
  obtain ⟨fresh, quoted, head, kids', same, arranged', contents, -, -, spares, shown⟩ :=
    chosen.exists_quoted
  obtain ⟨-, arranged, framed, split, parted, before, inside, after⟩ := chosen
  rw [same]
  have stands := stands_of_spares arranged framed before after (List.forall_mem_nil _)
    ⟨fun id mem => ⟨by simp [split, mem], List.not_mem_nil⟩,
      fun id mem => ⟨by simp [split, mem], List.not_mem_nil⟩⟩
    spares arranged' contents (List.getLast?_concat ..) shown
  exact ⟨rfl, stands.isAt⟩

end Chosen

/-- There is one place of a cursor. -/
theorem At.unique {spot' : Spot} (here : editor.At spot) (here' : editor.At spot') :
    spot = spot' :=
  Option.some.inj (here.place.symm.trans here'.place)

/-- The nodes of a list show what is right before the cursor and right behind it. -/
theorem exists_stands (arranged : editor.document.Arranged kids [])
    (split : kids list = front ++ back) (ends : front.getLast? = some editor.cursor) :
    ∃ spot, editor.Stands kids list front back spot := by
  have mem : editor.cursor ∈ kids list := by simp [split, List.mem_of_mem_getLast? ends]
  obtain ⟨around, framed⟩ := arranged.exists_framed (arranged.isList_of_mem mem)
  obtain ⟨trees, shown⟩ := arranged.exists_shown list
  rw [split] at shown
  obtain ⟨before, after, -, shown, shown'⟩ := shown.exists_append
  rw [← before.reverse_reverse] at shown
  exact ⟨⟨before.reverse, after, around⟩, arranged, framed, split, ends, shown, shown'⟩

/-- The selected run is right before the cursor or right behind it. -/
theorem SelectedFrom.exists_chosen {origin : NodeId} (arranged : editor.document.Arranged kids [])
    (selected : editor.SelectedFrom kids list origin run) (nonempty : run ≠ []) :
    ∃ spot rest span front back prev trees, editor.At spot ∧ Spot.Selects trees spot rest ∧
      editor.Chosen kids list front run back span prev trees rest := by
  obtain ⟨first, starts⟩ := Option.isSome_iff_exists.1 (List.isSome_head?.2 nonempty)
  obtain ⟨last, ends⟩ := Option.isSome_iff_exists.1
    (show run.getLast?.isSome = true by simpa using nonempty)
  cases selected with
  | @forward front run back split start stop anchor reach =>
      -- the cursor went over the run, so the run is the last of what is before the cursor
      obtain ⟨⟨before, after, around⟩, stands⟩ := exists_stands arranged split stop
      obtain ⟨outer, inner, same, shown, inside⟩ := stands.before.exists_append
      have parted : Parted front run back origin first last :=
        ⟨split ▸ arranged.nodup list, start, starts, ends⟩
      have selection := selection?_of_run arranged split starts ends (.inl ⟨anchor, reach⟩)
      obtain rfl : before = inner.reverse ++ outer.reverse := by
        rw [← List.reverse_append, ← same, List.reverse_reverse]
      refine ⟨_, _, ⟨first, last⟩, front, back, origin, inner, stands.isAt, .before, selection,
        arranged, stands.framed, split, parted, ?_, inside, stands.after⟩
      rwa [List.reverse_reverse]
  | @backward front run back split start stop anchor reach =>
      -- the cursor went back over the run, so the run is the first of what is behind the cursor
      have around : kids list = front ++ (run ++ back) := by rw [split, List.append_assoc]
      obtain ⟨⟨before, after, around⟩, stands⟩ := exists_stands arranged around stop
      obtain ⟨inner, outer, same, inside, shown⟩ := stands.after.exists_append
      have parted : Parted front run back editor.cursor first last :=
        ⟨split ▸ arranged.nodup list, stop, starts, ends⟩
      have selection := selection?_of_run arranged split starts ends (.inr ⟨anchor, reach⟩)
      obtain rfl : after = inner ++ outer := same
      exact ⟨_, _, ⟨first, last⟩, front, back, editor.cursor, inner, stands.isAt, .after, selection,
        arranged, stands.framed, split, parted, stands.before, inside, shown⟩

/-- Whatever was done in an editor, it shows a place in a tree, and each edit is an edit of that:
inserting a word or a list puts it right before the place, a list makes way for its items, and
deleting without a selection removes what is right before the place, or the list around it, or what
is right behind. With a selection, the selected run is right before the place or right behind it,
deleting in whichever way removes just that run, and quoting puts it into one list. -/
theorem edits_refine_tree_edits (steps : List Step) :
    let editor := steps.foldl Step.perform Editor.new
    ∃ spot, editor.At spot ∧
      (∀ classify text,
        (editor.insertWord classify text).At (spot.insertWord (classify text) text)) ∧
      editor.insertList.2.At spot.insertList ∧
      Does editor.unquote spot.unquote ∧
      (editor.hasSelection = false →
        (∀ stepIn stepOut,
          Does (editor.deletePrev stepIn stepOut) (spot.deletePrev stepIn stepOut)) ∧
        Does (editor.deleteNext false false) spot.deleteNext ∧
        (editor.deleteNext false false).2.cursor = editor.cursor) ∧
      (editor.hasSelection = true → ∃ span run rest, editor.selection? = some span ∧
        run = (editor.document.run span.first span.last).flatMap editor.document.shows ∧
        run ≠ [] ∧ Spot.Selects run spot rest ∧
        (∀ stepIn stepOut, Does (editor.deletePrev stepIn stepOut) (true, rest)) ∧
        (∀ stepIn stepOut, Does (editor.deleteNext stepIn stepOut) (true, rest)) ∧
        Does editor.deleteSelection (true, rest) ∧
        editor.quoteSelection.2.At (rest.insertQuoted run)) := by
  intro editor
  obtain ⟨kids, arranged, list, origin, run, selected⟩ : editor.Selected :=
    selected_of_steps steps
  obtain ⟨front, back, split⟩ := List.append_of_mem selected.cursor_mem
  have around : kids list = (front ++ [editor.cursor]) ++ back := by simp [split]
  obtain ⟨spot, stands⟩ := exists_stands arranged around (List.getLast?_concat ..)
  refine ⟨spot, stands.isAt, stands.insertWord, stands.insertList, stands.unquote, ?_, ?_⟩
  · intro unmarked
    exact ⟨stands.deletePrev unmarked, stands.deleteNext unmarked,
      stands.cursor_deleteNext unmarked⟩
  · intro marked
    have nonempty : run ≠ [] := by
      rw [Ne, ← selected.hasSelection_iff, marked]
      exact Bool.noConfusion
    -- the cursor has one place, so the run is beside the place of the other edits
    obtain ⟨spot', rest, span, front, back, prev, trees, here, selects, chosen⟩ :=
      selected.exists_chosen arranged nonempty
    obtain rfl := stands.isAt.unique here
    -- with a selection, both ways of deleting remove what is selected
    have deletesPrev (stepIn stepOut : Bool) :
        editor.deletePrev stepIn stepOut = editor.deleteSelection := by
      rw [Editor.deletePrev, if_pos marked]
    have deletesNext (stepIn stepOut : Bool) :
        editor.deleteNext stepIn stepOut = editor.deleteSelection := by
      rw [Editor.deleteNext, if_pos marked]
    have removes := chosen.deleteSelection
    have shown : trees =
        (editor.document.run span.first span.last).flatMap editor.document.shows := by
      rw [chosen.run_eq, chosen.flatMap_shows]
    refine ⟨span, trees, rest, chosen.selection, shown, chosen.trees_ne_nil, selects, ?_, ?_,
      removes, chosen.quoteSelection.2⟩
    · intro stepIn stepOut
      rw [deletesPrev]
      exact removes
    · intro stepIn stepOut
      rw [deletesNext]
      exact removes

/-- Behind a word and in a list behind that, a second word goes alone, and quoting it once it is
selected puts it into a list of its own. -/
theorem edits_refine_tree_edits_of_nested_word :
    let typed := [Step.edit (.insertWord "one") fun _ => .unknown,
      .edit .insertList fun _ => .unknown, .edit (.insertWord "two") fun _ => .unknown]
    let back := Step.edit (.movePrev { select := true }) fun _ => .unknown
    let editor := typed.foldl Step.perform Editor.new
    let marked := (typed ++ [back]).foldl Step.perform Editor.new
    let outside : Level := ⟨[.word .unknown "one"], []⟩
    (editor.hasSelection = false ∧ Does (editor.deletePrev true true) (true, ⟨[], [], [outside]⟩)) ∧
    (marked.hasSelection = true ∧ ∃ run rest, run ≠ [] ∧
      Spot.Selects run ⟨[], [.word .unknown "two"], [outside]⟩ rest ∧
      Does (marked.deleteNext false false) (true, rest) ∧
      marked.quoteSelection.2.At (rest.insertQuoted run)) := by
  intro typed back editor marked outside
  have unmarked : editor.hasSelection = false := by decide
  have isMarked : marked.hasSelection = true := by decide
  refine ⟨⟨unmarked, ?_⟩, isMarked, ?_⟩
  · obtain ⟨spot, here, -, -, -, deletes, -⟩ := edits_refine_tree_edits typed
    have place : editor.spot? = some ⟨[.word .unknown "two"], [], [outside]⟩ := rfl
    obtain rfl := Option.some.inj (here.place.symm.trans place)
    exact (deletes unmarked).1 true true
  · obtain ⟨spot, here, -, -, -, -, selected⟩ := edits_refine_tree_edits (typed ++ [back])
    have place : marked.spot? = some ⟨[], [.word .unknown "two"], [outside]⟩ := rfl
    obtain rfl := Option.some.inj (here.place.symm.trans place)
    obtain ⟨_, run, rest, -, -, nonempty, selects, -, deletes, -, quotes⟩ := selected isMarked
    exact ⟨run, rest, nonempty, selects, deletes false false, quotes⟩

end Editor

end LiveStack
