import LiveStack.Proofs.Editor.Selecting

/-!
# The selection of an editor

Whatever is done in an editor, its selection is a run of siblings that begins or ends at the cursor:
selecting moves keep it so, and every other step drops the selection, leaves it as it is, or selects
all. Read in document order, the selection is just that run.
-/

namespace LiveStack

open Document (root)

namespace Editor

variable {editor : Editor} {kids : Contents} {list origin : NodeId} {front run back : List NodeId}
  {motion : Motion}

/-! ## Every step -/

/-- The selection of the editor, or the lack of one, is a run from some origin to the cursor. -/
def Selected (editor : Editor) : Prop :=
  ∃ kids, editor.document.Arranged kids [] ∧
    ∃ list origin run, editor.SelectedFrom kids list origin run

theorem Sound.selected (sound : editor.Sound kids)
    (unmarked : editor.anchor = none ∧ editor.reach = none) : editor.Selected := by
  obtain ⟨list, mem, -⟩ := sound.placed
  exact ⟨kids, sound.arranged, list, _, [], selectedFrom_self mem unmarked⟩

/-- The ends of a run behind the head of a list are children of the list. -/
theorem selects_of_run (arranged : editor.document.Arranged kids [])
    (split : kids list = front ++ run ++ back) (behind : front ≠ [])
    (ends : (editor.anchor = run.head? ∧ editor.reach = run.getLast?) ∨
      (editor.anchor = run.getLast? ∧ editor.reach = run.head?)) : editor.Selects kids list := by
  have child : ∀ id ∈ run, editor.Child kids list id := by
    intro id mem
    obtain ⟨before, rest, rfl⟩ := List.append_of_mem mem
    have atId : kids list = (front ++ before) ++ id :: (rest ++ back) := by simp [split]
    exact ⟨by simp [atId], arranged.kind?_ne_head atId (by simp [behind])⟩
  cases first : run.head? with
  | none =>
      obtain rfl := List.head?_eq_none_iff.1 first
      exact .inl (ends.elim id id)
  | some first' =>
      cases last : run.getLast? with
      | none => simp [List.getLast?_eq_none_iff.1 last] at first
      | some last' =>
          have firstChild := child first' (List.mem_of_mem_head? first)
          have lastChild := child last' (List.mem_of_mem_getLast? last)
          rw [first, last] at ends
          rcases ends with ⟨anchor, reach⟩ | ⟨anchor, reach⟩
          · exact .inr ⟨_, _, anchor, reach, firstChild, lastChild⟩
          · exact .inr ⟨_, _, anchor, reach, lastChild, firstChild⟩

theorem SelectedFrom.sound (arranged : editor.document.Arranged kids [])
    (selected : editor.SelectedFrom kids list origin run) : editor.Sound kids := by
  cases selected with
  | forward split start stop anchor reach =>
      refine ⟨arranged, list, ?_, selects_of_run arranged split (by rintro rfl; cases start)
        (.inl ⟨anchor, reach⟩)⟩
      rw [split]
      exact List.mem_append_left _ (List.mem_of_mem_getLast? stop)
  | backward split start stop anchor reach =>
      refine ⟨arranged, list, ?_, selects_of_run arranged split (by rintro rfl; cases stop)
        (.inr ⟨anchor, reach⟩)⟩
      rw [split, List.append_assoc]
      exact List.mem_append_left _ (List.mem_of_mem_getLast? stop)

theorem unmarked_moveNext (plain : motion.select = false) :
    (editor.moveNext motion).2.anchor = none ∧ (editor.moveNext motion).2.reach = none := by
  have unmarked := unmarked_beginMove editor motion plain
  simp only [Editor.moveNext, plain]
  generalize editor.beginMove motion = editor at *
  split
  · exact unmarked
  · split <;> exact unmarked

namespace Selected

variable (selected : editor.Selected)

include selected

theorem exists_sound : ∃ kids, editor.Sound kids := by
  obtain ⟨kids, arranged, _, _, _, selected⟩ := selected
  exact ⟨kids, selected.sound arranged⟩

theorem selectNone : editor.selectNone.Selected := by
  obtain ⟨kids, sound⟩ := selected.exists_sound
  exact sound.selectNone.selected ⟨rfl, rfl⟩

theorem movePrev (motion : Motion) : (editor.movePrev motion).2.Selected := by
  cases select : motion.select with
  | true =>
      obtain ⟨kids, arranged, list, origin, run, selected⟩ := selected
      obtain ⟨run', selected⟩ := selected.movePrev arranged select
      exact ⟨kids, (document_movePrev select).symm ▸ arranged, list, origin, run', selected⟩
  | false =>
      obtain ⟨kids, sound⟩ := selected.exists_sound
      exact (movePrev_sound sound motion).2.selected (unmarked_movePrev select)

theorem moveNext (motion : Motion) : (editor.moveNext motion).2.Selected := by
  cases select : motion.select with
  | true =>
      obtain ⟨kids, arranged, list, origin, run, selected⟩ := selected
      obtain ⟨run', selected⟩ := selected.moveNext arranged select
      exact ⟨kids, (document_moveNext select).symm ▸ arranged, list, origin, run', selected⟩
  | false =>
      obtain ⟨kids, sound⟩ := selected.exists_sound
      exact (moveNext_sound sound motion).2.selected (unmarked_moveNext select)

/-- All is selected from the head of the top level. -/
theorem selectAll : editor.selectAll.Selected := by
  obtain ⟨kids, sound⟩ := selected.exists_sound
  have arranged := sound.arranged
  obtain ⟨head, rest, split, -, first⟩ := arranged.exists_head arranged.rooted
  have top : editor.document.top = head := by rw [Document.top, first, Option.getD_some]
  have next := arranged.next? (show kids root = [] ++ head :: rest from split)
  have last := arranged.last?_of_isList arranged.rooted
  simp only [Editor.selectAll, top, next, last, split]
  cases rest with
  | nil => exact selected
  | cons first rest =>
      have ends : (head :: first :: rest).getLast? = some ((first :: rest).getLast (by simp)) := by
        simp [List.getLast?_eq_some_getLast]
      simp only [List.head?_cons, ends]
      have around : kids root = [head] ++ (first :: rest) ++ [] := by simp [split]
      exact ⟨kids, arranged, root, head, first :: rest,
        .forward around rfl ends rfl (List.getLast?_eq_some_getLast _).symm⟩

theorem insertWord (classify : Classifier) (text : String) :
    (editor.insertWord classify text).Selected := by
  obtain ⟨kids, sound⟩ := selected.exists_sound
  obtain ⟨-, kids', sound⟩ := insertWord_sound sound classify text
  exact sound.selected ⟨rfl, rfl⟩

theorem insertList : editor.insertList.2.Selected := by
  obtain ⟨kids, sound⟩ := selected.exists_sound
  obtain ⟨-, kids', sound⟩ := insertList_sound sound
  exact sound.selected ⟨rfl, rfl⟩

theorem insertToken (classify : Classifier) (depth : Nat) (token : Token) :
    (insertToken classify (editor, depth) token).1.Selected := by
  rw [Editor.insertToken]
  cases token.lexeme with
  | opening => exact selected.insertList
  | closing =>
      by_cases outside : depth = 0
      · simp only [outside, if_true]
        exact selected
      · simp only [if_neg outside]
        exact selected.moveNext _
  | string text | word text => exact selected.insertWord classify text

theorem closeOpen (depth : Nat) : (closeOpen depth editor).Selected := by
  induction depth generalizing editor with
  | zero => exact selected
  | succ depth ih =>
      rw [Editor.closeOpen]
      have next : editor.closeList.2.Selected := selected.moveNext _
      split
      · next same =>
          rw [same] at next
          exact ih next
      · next same => rwa [same] at next

/-- Text without any token in it leaves the selection there. -/
theorem insertSource (classify : Classifier) (source : String) :
    (editor.insertSource classify source).Selected := by
  have inserted : ∀ tokens : List Token, ∀ {editor : Editor}, editor.Selected → ∀ depth,
      (tokens.foldl (Editor.insertToken classify) (editor, depth)).1.Selected := by
    intro tokens
    induction tokens with
    | nil => exact fun selected _ => selected
    | cons token rest ih =>
        exact fun selected depth => ih (selected.insertToken classify depth token) _
  rw [Editor.insertSource]
  exact (inserted _ selected 0).closeOpen _

theorem deleteSelection : editor.deleteSelection.2.Selected := by
  obtain ⟨kids, sound⟩ := selected.exists_sound
  obtain ⟨-, kids', sound'⟩ := deleteSelection_sound sound
  rcases (detachSelection_sound sound).2 with same | ⟨_, _, _, _, _, _, _, _, same, -⟩
  · rwa [Editor.deleteSelection, same]
  · refine sound'.selected ?_
    rw [Editor.deleteSelection, same]
    exact ⟨rfl, rfl⟩

theorem deletePrev (stepIn stepOut : Bool) : (editor.deletePrev stepIn stepOut).2.Selected := by
  obtain ⟨kids, sound⟩ := selected.exists_sound
  by_cases marked : editor.hasSelection = true
  · rw [Editor.deletePrev, if_pos marked]
    exact selected.deleteSelection
  · obtain ⟨-, kids', sound'⟩ := deletePrev_sound sound stepIn stepOut
    have unmarked : (editor.movePrev { stepIn, stepOut }).2.anchor = none ∧
        (editor.movePrev { stepIn, stepOut }).2.reach = none := unmarked_movePrev rfl
    refine sound'.selected ?_
    rw [Editor.deletePrev, if_neg marked]
    generalize editor.movePrev { stepIn, stepOut } = moved at unmarked
    obtain ⟨moved, editor⟩ := moved
    cases moved with
    | false => exact unmarked
    | true =>
        show editor.removeNext.anchor = none ∧ editor.removeNext.reach = none
        rw [Editor.removeNext]
        split
        · exact unmarked
        · split <;> exact unmarked

theorem deleteNext (stepIn stepOut : Bool) : (editor.deleteNext stepIn stepOut).2.Selected := by
  by_cases marked : editor.hasSelection = true
  · rw [Editor.deleteNext, if_pos marked]
    exact selected.deleteSelection
  · rw [Editor.deleteNext, if_neg marked]
    have next := selected.moveNext { stepIn, stepOut }
    split
    · next same =>
        rw [same] at next
        exact next.deletePrev stepIn stepOut
    · next same => rwa [same] at next

theorem quoteSelection : editor.quoteSelection.2.Selected := by
  obtain ⟨kids, sound⟩ := selected.exists_sound
  obtain ⟨-, kids', sound'⟩ := quoteSelection_sound sound
  rcases (detachSelection_sound sound).2 with same | ⟨_, _, _, _, _, _, _, _, same, -⟩
  · rwa [Editor.quoteSelection, same]
  · refine sound'.selected ?_
    rw [Editor.quoteSelection, same]
    exact ⟨rfl, rfl⟩

theorem unquote : editor.unquote.2.Selected := by
  obtain ⟨kids, sound⟩ := selected.exists_sound
  obtain ⟨-, kids', sound'⟩ := unquote_sound sound
  by_cases isList : editor.document.isList editor.cursor = true
  · refine sound'.selected ?_
    simp only [Editor.unquote, isList, Bool.not_true, Bool.false_eq_true, if_false]
    split <;> exact ⟨rfl, rfl⟩
  · simp only [Editor.unquote, isList, Bool.not_false, if_true]
    exact selected

theorem clear : editor.clear.Selected := by
  obtain ⟨kids, sound⟩ := selected.exists_sound
  obtain ⟨-, kids', sound⟩ := clear_sound sound
  exact sound.selected ⟨rfl, rfl⟩

theorem reclassify (classify : Classifier) : (editor.reclassify classify).Selected := by
  obtain ⟨kids, arranged, list, origin, run, selected⟩ := selected
  have sound := reclassify_sound (selected.sound arranged) classify
  refine ⟨kids, sound.arranged, list, origin, run, ?_⟩
  cases selected with
  | forward split start stop anchor reach => exact .forward split start stop anchor reach
  | backward split start stop anchor reach => exact .backward split start stop anchor reach

theorem step (step : Step) : (Step.perform editor step).Selected := by
  cases step with
  | deleteSelection => exact selected.deleteSelection
  | clear => exact selected.clear
  | reclassify classify => exact selected.reclassify classify
  | edit change classify =>
      cases change with
      | movePrev motion => exact selected.movePrev motion
      | moveNext motion => exact selected.moveNext motion
      | moveFirst select => exact moveFirst_keeps (fun _ selected => selected.movePrev _) selected
      | moveLast select => exact moveLast_keeps (fun _ selected => selected.moveNext _) selected
      | insertWord text => exact selected.insertWord classify text
      | insertList => exact selected.insertList
      | closeList => exact selected.moveNext _
      | insertSource source => exact selected.insertSource classify source
      | deletePrev stepIn stepOut => exact selected.deletePrev stepIn stepOut
      | deleteNext stepIn stepOut => exact selected.deleteNext stepIn stepOut
      | selectAll => exact selected.selectAll
      | selectNone => exact selected.selectNone
      | quote => exact selected.quoteSelection
      | unquote => exact selected.unquote

end Selected

/-- Whatever is done in an editor, what is selected is a run that ends at the cursor. -/
theorem selected_of_steps (steps : List Step) :
    (steps.foldl Step.perform Editor.new).Selected := by
  have started : Editor.new.Selected := by
    obtain ⟨kids, sound⟩ := exists_sound_new
    exact sound.selected ⟨rfl, rfl⟩
  generalize Editor.new = editor at started
  induction steps generalizing editor with
  | nil => exact started
  | cons step rest ih => exact ih _ (started.step step)

/-! ## Reading the selection -/

theorem hasSelection_eq_false :
    editor.hasSelection = false ↔ editor.anchor = none ∧ editor.reach = none := by
  rw [hasSelection, Bool.or_eq_false_iff, Option.isSome_eq_false_iff, Option.isSome_eq_false_iff,
    Option.isNone_iff_eq_none, Option.isNone_iff_eq_none]

namespace SelectedFrom

variable (arranged : editor.document.Arranged kids [])
  (selected : editor.SelectedFrom kids list origin run)

include selected

theorem hasSelection_iff : editor.hasSelection = false ↔ run = [] := by
  rw [hasSelection_eq_false]
  cases selected with
  | forward split start stop anchor reach => simp [anchor, reach]
  | backward split start stop anchor reach => simp [anchor, reach]

include arranged

/-- Nothing is selected just when the cursor is at the origin. -/
theorem eq_nil_iff : run = [] ↔ editor.cursor = origin := by
  have nodup := arranged.nodup list
  -- the later of the two is the last of the run, and the earlier one is before it
  have apart : ∀ {front back : List NodeId} {near far : NodeId},
      kids list = front ++ run ++ back → front.getLast? = some near →
        (front ++ run).getLast? = some far → (run = [] ↔ near = far) := by
    intro front back near far split start stop
    rw [split, List.nodup_append] at nodup
    cases ends : run.getLast? with
    | none =>
        obtain rfl := List.getLast?_eq_none_iff.1 ends
        rw [List.append_nil] at stop
        exact iff_of_true rfl (Option.some.inj (start.symm.trans stop))
    | some last =>
        rw [List.getLast?_append, ends] at stop
        obtain rfl : last = far := Option.some.inj stop
        refine iff_of_false (by rintro rfl; cases ends) ?_
        exact (List.nodup_append.1 nodup.1).2.2 _ (List.mem_of_mem_getLast? start) _
          (List.mem_of_mem_getLast? ends)
  cases selected with
  | forward split start stop => exact (apart split start stop).trans eq_comm
  | backward split start stop => exact apart split stop start

end SelectedFrom

end Editor

namespace Document

variable {document : Document} {kids : Contents} {list near far first last : NodeId}
  {front run back : List NodeId}

/-- The nodes from the first of a span to its last are children of the list. -/
structure HasRun (document : Document) (list : NodeId) (span : Span) : Prop where
  starts : (document.run span.first span.last).head? = some span.first
  ends : (document.run span.first span.last).getLast? = some span.last
  inside : ∀ id ∈ document.run span.first span.last,
    document.parent? id = some list ∧ document.isHead id = false

/-- The span is what comes strictly after `near`, up to and including `far`. -/
structure IsBeyond (document : Document) (near far : NodeId) (span : Span) : Prop where
  follows : document.next? near = some span.first
  stops : span.last = far
  run : document.run near far = near :: document.run span.first span.last
  reaches : (document.run near far).getLast? = some far

namespace Arranged

variable (arranged : document.Arranged kids [])

include arranged

/-- Part of a list is read back from its ends. -/
theorem run_of_split (split : kids list = front ++ run ++ back) (starts : run.head? = some first)
    (ends : run.getLast? = some last) : document.run first last = run := by
  obtain ⟨rest, rfl⟩ := List.head?_eq_some_iff.1 starts
  have nodup := arranged.nodup list
  rw [split, List.nodup_append, List.nodup_append] at nodup
  have siblings := arranged.siblingsFrom
    (show kids list = front ++ first :: (rest ++ back) by simp [split])
  exact run_eq siblings nodup.1.2.1 ends

theorem hasRun (split : kids list = front ++ run ++ back) (behind : front ≠ [])
    (starts : run.head? = some first) (ends : run.getLast? = some last) :
    document.HasRun list ⟨first, last⟩ := by
  have same : document.run first last = run := arranged.run_of_split split starts ends
  refine ⟨same.symm ▸ starts, same.symm ▸ ends, fun id mem => ?_⟩
  rw [same] at mem
  obtain ⟨before, rest, rfl⟩ := List.append_of_mem mem
  have atId : kids list = (front ++ before) ++ id :: (rest ++ back) := by simp [split]
  exact ⟨arranged.parent? (by simp [atId]),
    decide_eq_false (arranged.kind?_ne_head atId (by simp [behind]))⟩

theorem isBeyond (split : kids list = front ++ run ++ back) (start : front.getLast? = some near)
    (stop : (front ++ run).getLast? = some far) (starts : run.head? = some first)
    (ends : run.getLast? = some last) : document.IsBeyond near far ⟨first, last⟩ := by
  obtain ⟨init, rfl⟩ := List.getLast?_eq_some_iff.1 start
  have atNear : kids list = init ++ near :: (run ++ back) := by simp [split]
  rw [List.getLast?_append, ends] at stop
  obtain rfl : last = far := Option.some.inj stop
  have whole : document.run near last = near :: run :=
    arranged.run_of_split (show kids list = init ++ (near :: run) ++ back by simp [split]) rfl
      (by simp [List.getLast?_cons, ends])
  constructor
  case follows =>
    rw [arranged.next? atNear, List.head?_append, starts]
    rfl
  case stops => rfl
  case run => rw [whole, arranged.run_of_split split starts ends]
  case reaches => simp [whole, List.getLast?_cons, ends]

end Arranged

end Document

namespace Editor

variable {editor : Editor} {kids : Contents} {list origin first last : NodeId}
  {front run back : List NodeId}

/-- The ends come in document order, whichever of them was marked first. -/
theorem selection?_of_run (arranged : editor.document.Arranged kids [])
    (split : kids list = front ++ run ++ back) (starts : run.head? = some first)
    (ends : run.getLast? = some last)
    (marked : (editor.anchor = run.head? ∧ editor.reach = run.getLast?) ∨
      (editor.anchor = run.getLast? ∧ editor.reach = run.head?)) :
    editor.selection? = some ⟨first, last⟩ := by
  rw [starts, ends] at marked
  rcases marked with ⟨anchor, reach⟩ | ⟨anchor, reach⟩
  · -- the last is found on the way from the first
    obtain ⟨rest, rfl⟩ := List.head?_eq_some_iff.1 starts
    have siblings := arranged.siblingsFrom
      (show kids list = front ++ first :: (rest ++ back) by simp [split])
    have found : last ∈ first :: (rest ++ back) :=
      List.mem_append_left back (List.mem_of_mem_getLast? ends)
    rw [selection?, anchor, reach]
    simp only [siblings, Option.bind_eq_bind, Option.bind_some, if_pos found]
    rfl
  · -- the first is behind the last only if it is the last
    obtain ⟨init, rfl⟩ := List.getLast?_eq_some_iff.1 ends
    have atLast : kids list = (front ++ init) ++ last :: back := by simp [split]
    have siblings := arranged.siblingsFrom atLast
    rw [selection?, anchor, reach]
    simp only [siblings, Option.bind_eq_bind, Option.bind_some]
    by_cases found : first ∈ last :: back
    · have same : first = last := by
        by_contra differs
        have nodup := arranged.nodup list
        rw [atLast, List.nodup_append] at nodup
        have inside : first ∈ init := by
          cases init with
          | nil => exact absurd (Option.some.inj starts).symm differs
          | cons => simpa using Or.inl (Option.some.inj starts).symm
        exact nodup.2.2 first (List.mem_append_right _ inside) first found rfl
      rw [if_pos found, same]
      rfl
    · rw [if_neg found]
      rfl

theorem SelectedFrom.selection? (arranged : editor.document.Arranged kids [])
    (selected : editor.SelectedFrom kids list origin run) (nonempty : run ≠ []) :
    ∃ span, editor.selection? = some span ∧ editor.document.HasRun list span ∧
      (editor.document.IsBeyond origin editor.cursor span ∨
        editor.document.IsBeyond editor.cursor origin span) := by
  obtain ⟨first, starts⟩ := Option.isSome_iff_exists.1 (List.isSome_head?.2 nonempty)
  obtain ⟨last, ends⟩ := Option.isSome_iff_exists.1
    (show run.getLast?.isSome = true by simpa using nonempty)
  refine ⟨⟨first, last⟩, ?_⟩
  cases selected with
  | forward split start stop anchor reach =>
      exact ⟨selection?_of_run arranged split starts ends (.inl ⟨anchor, reach⟩),
        arranged.hasRun split (by rintro rfl; cases start) starts ends,
        .inl (arranged.isBeyond split start stop starts ends)⟩
  | backward split start stop anchor reach =>
      exact ⟨selection?_of_run arranged split starts ends (.inr ⟨anchor, reach⟩),
        arranged.hasRun split (by rintro rfl; cases stop) starts ends,
        .inr (arranged.isBeyond split stop start starts ends)⟩

theorem SelectedFrom.cursor_mem (selected : editor.SelectedFrom kids list origin run) :
    editor.cursor ∈ kids list := by
  cases selected with
  | forward split start stop =>
      rw [split]
      exact List.mem_append_left _ (List.mem_of_mem_getLast? stop)
  | backward split start stop =>
      rw [split, List.append_assoc]
      exact List.mem_append_left _ (List.mem_of_mem_getLast? stop)

/-- Whatever was done in an editor: if there is a selection, it is a run of children of the list
the cursor is in, and the cursor is on the last of them or right before the first. If there is
none, then any selecting moves select what comes strictly after the earlier of the two places, where
the cursor was and where it is, up to and including the later one: nothing just if they are the
same. -/
theorem selections_are_exact (steps : List Step) (moves : List SelectingMove) :
    let editor := steps.foldl Step.perform Editor.new
    let moved := moves.foldl SelectingMove.perform editor
    (editor.hasSelection = true →
      ∃ span list, editor.selection? = some span ∧
        editor.document.parent? editor.cursor = some list ∧ editor.document.HasRun list span ∧
        (editor.cursor = span.last ∨ editor.document.next? editor.cursor = some span.first)) ∧
    (editor.hasSelection = false →
      moved.document = editor.document ∧
        (moved.hasSelection = false ↔ moved.cursor = editor.cursor) ∧
        (moved.cursor ≠ editor.cursor → ∃ span, moved.selection? = some span ∧
          (editor.document.IsBeyond editor.cursor moved.cursor span ∨
            editor.document.IsBeyond moved.cursor editor.cursor span))) := by
  intro editor moved
  obtain ⟨kids, arranged, list, origin, run, selected⟩ : editor.Selected :=
    selected_of_steps steps
  refine ⟨fun marked => ?_, fun unmarked => ?_⟩
  · have nonempty : run ≠ [] := by
      rw [Ne, ← selected.hasSelection_iff, marked]
      exact Bool.noConfusion
    obtain ⟨span, known, isRun, beyond⟩ := selected.selection? arranged nonempty
    refine ⟨span, list, known, arranged.parent? selected.cursor_mem, isRun, ?_⟩
    exact beyond.imp (fun beyond => beyond.stops.symm) (fun beyond => beyond.follows)
  · -- with nothing selected, the cursor is where the selection of the moves begins
    obtain rfl : run = [] := selected.hasSelection_iff.1 unmarked
    obtain rfl : editor.cursor = origin := (selected.eq_nil_iff arranged).1 rfl
    have began : Began editor.document kids list editor.cursor editor := ⟨rfl, _, selected⟩
    obtain ⟨same, run, selected⟩ : Began editor.document kids list editor.cursor moved :=
      began.performAll arranged moves
    have arranged' : moved.document.Arranged kids [] := same.symm ▸ arranged
    have empty := selected.eq_nil_iff arranged'
    refine ⟨same, selected.hasSelection_iff.trans empty, fun away => ?_⟩
    obtain ⟨span, known, -, beyond⟩ := selected.selection? arranged' (empty.not.2 away)
    exact ⟨span, known, same ▸ beyond⟩

/-- Behind two words, one selecting move back takes the second, and a next one the first too. -/
theorem selections_are_exact_of_two_words :
    let typed := [Step.edit (.insertWord "one") fun _ => .unknown,
      .edit (.insertWord "two") fun _ => .unknown]
    let back := Step.edit (.movePrev { select := true }) fun _ => .unknown
    let editor := typed.foldl Step.perform Editor.new
    let reached := (typed ++ [back]).foldl Step.perform Editor.new
    let moved :=
      [SelectingMove.prev false false, .prev true true].foldl SelectingMove.perform editor
    (∃ span list, reached.selection? = some span ∧
      reached.document.parent? reached.cursor = some list ∧ reached.document.HasRun list span ∧
      (reached.cursor = span.last ∨ reached.document.next? reached.cursor = some span.first)) ∧
    moved.hasSelection = true ∧ ∃ span, moved.selection? = some span ∧
      (editor.document.IsBeyond editor.cursor moved.cursor span ∨
        editor.document.IsBeyond moved.cursor editor.cursor span) := by
  intro typed back editor reached moved
  have marked : reached.hasSelection = true := by decide
  have unmarked : editor.hasSelection = false := by decide
  have away : moved.cursor ≠ editor.cursor := by decide
  obtain ⟨-, empty, beyond⟩ :=
    (selections_are_exact typed [.prev false false, .prev true true]).2 unmarked
  refine ⟨(selections_are_exact (typed ++ [back]) []).1 marked, ?_, beyond away⟩
  exact Bool.of_not_eq_false (empty.not.2 away)

end Editor

end LiveStack
