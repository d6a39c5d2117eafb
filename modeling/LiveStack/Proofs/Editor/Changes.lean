import LiveStack.Proofs.Document.Quoting
import LiveStack.Proofs.Document.Sketch
import LiveStack.Proofs.Editor.Moves

/-!
# Changes in a sound editor

What an edit takes out of the document is loose until it is freed or put back. In a sound editor
every change ends with nothing loose, and with the cursor on a node that is left.
-/

namespace LiveStack

open Relation

open Document (root Parted)

namespace Editor

variable {editor : Editor} {kids : Contents} {list id first last : NodeId}

/-! ## Selections -/

theorem selectAll_sound (sound : editor.Sound kids) :
    Strict.selectAll editor = some editor.selectAll ∧ editor.selectAll.Sound kids := by
  have arranged := sound.arranged
  obtain ⟨head, rest, split, -, first⟩ := arranged.exists_head arranged.rooted
  have top : editor.document.top = head := by rw [Document.top, first, Option.getD_some]
  have mem : head ∈ kids root := by simp [split]
  have last := arranged.last?_of_isList arranged.rooted
  have next := arranged.next? (show kids root = [] ++ head :: rest from split)
  have live := Document.live_of_isList arranged.rooted
  simp only [Strict.selectAll, selectAll, top, Document.about_of_live live, next, last, split,
    Document.about_of_live (arranged.live_of_mem mem), Option.bind_eq_bind, Option.bind_some]
  have child : ∀ {id}, id ∈ rest → editor.Child kids root id := fun mem =>
    ⟨by simp [split, mem], arranged.kind?_ne_head_of_mem split mem⟩
  cases rest with
  | nil => exact ⟨rfl, sound⟩
  | cons first rest =>
      have ends : (head :: first :: rest).getLast? = some ((first :: rest).getLast (by simp)) := by
        simp [List.getLast?_eq_some_getLast]
      have mem := List.getLast_mem (show first :: rest ≠ [] by simp)
      simp only [List.head?_cons, ends]
      exact ⟨rfl, arranged, root, (child mem).1,
        .inr ⟨_, _, rfl, rfl, child List.mem_cons_self, child mem⟩⟩

/-- A selection is a run of siblings behind the head of their list. -/
def Marks (kids : Contents) (span : Span) : Prop :=
  ∃ list front run back prev, kids list = front ++ run ++ back ∧
    Parted front run back prev span.first span.last

theorem marks_of_mem {front rest : List NodeId} (arranged : editor.document.Arranged kids [])
    (split : kids list = front ++ first :: rest) (child : editor.Child kids list first)
    (mem : last ∈ first :: rest) : Marks kids ⟨first, last⟩ := by
  obtain ⟨middle, back, split', notMem⟩ := List.eq_append_cons_of_mem mem
  have whole : kids list = front ++ (middle ++ [last]) ++ back := by simp [split, split']
  obtain ⟨prev, before⟩ := arranged.exists_before split child.2
  refine ⟨list, front, middle ++ [last], back, prev, whole, ?_, before, ?_, by simp⟩
  · exact whole ▸ arranged.nodup list
  · cases middle with
    | nil => exact congrArg List.head? split'.symm
    | cons id middle =>
        rw [List.cons_append, List.cons.injEq] at split'
        exact congrArg some split'.1.symm

theorem selection_sound (sound : editor.Sound kids) :
    Strict.selection editor = some editor.selection? ∧
      ∀ span, editor.selection? = some span → Marks kids span := by
  obtain ⟨list, -, selects⟩ := sound.placed
  rcases selects with ⟨none, none'⟩ | ⟨anchor, reach, isAnchor, isReach, child, child'⟩
  · rw [Strict.selection, selection?, none, none']
    exact ⟨rfl, nofun⟩
  · have arranged := sound.arranged
    obtain ⟨front, back, split⟩ := List.append_of_mem child.1
    have siblings := arranged.siblingsFrom split
    have chained := arranged.chained list
    have nodup := arranged.nodup list
    rw [split] at chained nodup
    obtain ⟨passed, known, ends⟩ : ∃ passed,
        Document.Strict.runOf editor.document anchor reach = some passed ∧
          (passed.getLast? = some reach ↔ reach ∈ anchor :: back) :=
      Document.Strict.exists_runOf (Document.chained_append.1 chained).2
        (List.nodup_append.1 nodup).2.1 rfl
    rw [Strict.selection, selection?, isAnchor, isReach]
    simp only [known, siblings, Option.bind_eq_bind, Option.bind_some, ends]
    -- The selection goes from the anchor to its reach or the other way round, whichever comes first
    -- in the list.
    by_cases mem : reach ∈ anchor :: back
    · rw [if_pos mem, if_pos mem]
      refine ⟨rfl, fun span same => ?_⟩
      cases same
      exact marks_of_mem arranged split child mem
    · rw [if_neg mem, if_neg mem]
      refine ⟨rfl, fun span same => ?_⟩
      cases same
      have mem' : reach ∈ front := by
        have inside := child'.1
        rw [split] at inside
        exact (List.mem_append.1 inside).resolve_right mem
      obtain ⟨init, middle, rfl⟩ := List.append_of_mem mem'
      exact marks_of_mem arranged (show kids list = init ++ reach :: (middle ++ anchor :: back) by
        simp [split]) child' (by simp)

/-! ## Insertions -/

/-- The front of a list up to the cursor, and the rest. -/
theorem Sound.exists_parts (sound : editor.Sound kids) :
    ∃ list front back, kids list = front ++ back ∧ front.getLast? = some editor.cursor := by
  obtain ⟨list, mem, -⟩ := sound.placed
  obtain ⟨front, back, split⟩ := List.append_of_mem mem
  exact ⟨list, front ++ [editor.cursor], back, by simp [split], by simp⟩

theorem insertWord_sound (sound : editor.Sound kids) (classify : Classifier) (text : String) :
    Strict.insertWord editor classify text = some (editor.insertWord classify text) ∧
      ∃ kids', (editor.insertWord classify text).Sound kids' := by
  obtain ⟨list, front, back, split, before⟩ := sound.exists_parts
  have mem : editor.cursor ∈ kids list := by simp [split, List.mem_of_mem_getLast? before]
  rw [Strict.insertWord, Document.Strict.insertWordAfter_eq sound.arranged mem]
  refine ⟨rfl, _, sound.arranged.insertWordAfter split before (classify text) text, list, ?_,
    .inl ⟨rfl, rfl⟩⟩
  rw [Contents.set_self]
  simp [insertWord, Document.insertWordAfter]

theorem insertList_sound (sound : editor.Sound kids) :
    Strict.insertList editor = some editor.insertList ∧
      ∃ kids', editor.insertList.2.Sound kids' := by
  obtain ⟨list, front, back, split, before⟩ := sound.exists_parts
  have mem : editor.cursor ∈ kids list := by simp [split, List.mem_of_mem_getLast? before]
  obtain ⟨kids', arranged, inner, around, -⟩ := sound.arranged.insertListAfter split before
  have held : editor.document.slots.size ∈ kids' list := by simp [around]
  have live := arranged.live_of_mem held
  have first := arranged.first?_of_cons inner
  rw [Strict.insertList, Document.Strict.insertListAfter_eq sound.arranged mem, insertList]
  generalize inserted : editor.document.insertListAfter editor.cursor = made at *
  obtain ⟨fresh, document⟩ := made
  obtain rfl : fresh = editor.document.slots.size := (congrArg Prod.fst inserted).symm
  simp only [Option.bind_eq_bind, Option.bind_some, Document.about_of_live live, first]
  exact ⟨rfl, kids', arranged, _, show _ ∈ kids' _ by rw [inner]; exact List.mem_singleton_self _,
    .inl ⟨rfl, rfl⟩⟩

/-- The cursor goes onto the head of a list that is inserted. -/
theorem cursor_insertList {head : NodeId} {rest : List NodeId}
    (arranged : editor.insertList.2.document.Arranged kids [])
    (inside : kids editor.document.slots.size = head :: rest) :
    editor.insertList.2.cursor = head :=
  congrArg (Option.getD · _) (arranged.first?_of_cons inside)

theorem insertToken_sound (sound : editor.Sound kids) (classify : Classifier) (depth : Nat)
    (token : Token) :
    Strict.insertToken classify (editor, depth) token =
        some (insertToken classify (editor, depth) token) ∧
      ∃ kids', (insertToken classify (editor, depth) token).1.Sound kids' := by
  rw [Strict.insertToken, insertToken]
  cases token.lexeme with
  | opening =>
      obtain ⟨same, sound⟩ := insertList_sound sound
      simp only [same]
      exact ⟨rfl, sound⟩
  | closing =>
      by_cases outside : depth = 0
      · simp only [outside, if_true]
        exact ⟨rfl, kids, sound⟩
      · obtain ⟨same, sound⟩ := moveNext_sound sound { stepIn := true, stepOut := true }
        simp only [if_neg outside, Strict.closeList, same]
        exact ⟨rfl, kids, sound⟩
  | string text | word text =>
      obtain ⟨same, sound⟩ := insertWord_sound sound classify text
      simp only [same]
      exact ⟨rfl, sound⟩

theorem insertTokens_sound (sound : editor.Sound kids) (classify : Classifier) (depth : Nat)
    (tokens : List Token) :
    tokens.foldlM (Strict.insertToken classify) (editor, depth) =
        some (tokens.foldl (insertToken classify) (editor, depth)) ∧
      ∃ kids', (tokens.foldl (insertToken classify) (editor, depth)).1.Sound kids' := by
  induction tokens generalizing editor depth kids with
  | nil => exact ⟨rfl, kids, sound⟩
  | cons token rest ih =>
      obtain ⟨same, kids', sound⟩ := insertToken_sound sound classify depth token
      rw [List.foldlM_cons, same]
      exact ih sound _

theorem closeOpen_sound (sound : editor.Sound kids) (depth : Nat) :
    Strict.closeOpen depth editor = some (closeOpen depth editor) ∧
      (closeOpen depth editor).Sound kids := by
  induction depth generalizing editor with
  | zero => exact ⟨rfl, sound⟩
  | succ depth ih =>
      obtain ⟨same, sound⟩ := moveNext_sound sound { stepIn := true, stepOut := true }
      rw [Strict.closeOpen, closeOpen, Strict.closeList, closeList, same]
      generalize editor.moveNext { stepIn := true, stepOut := true } = moved at sound
      obtain ⟨moved, editor⟩ := moved
      cases moved with
      | true => exact ih sound
      | false => exact ⟨rfl, sound⟩

theorem insertSource_sound (sound : editor.Sound kids) (classify : Classifier) (source : String) :
    Strict.insertSource editor classify source = some (editor.insertSource classify source) ∧
      ∃ kids', (editor.insertSource classify source).Sound kids' := by
  rw [Strict.insertSource, insertSource]
  obtain ⟨same, kids', sound⟩ := insertTokens_sound sound classify 0
    (Token.ofSource "<insert>" source).1
  obtain ⟨same', sound⟩ := closeOpen_sound sound _
  simp only [same]
  exact ⟨same', kids', sound⟩

/-! ## Deletions -/

/-- A selection that is taken out is a loose run, and the root holds the list it was in. -/
theorem detachSelection_sound (sound : editor.Sound kids) :
    Strict.detachSelection editor = some editor.detachSelection ∧
      (editor.detachSelection = (none, editor) ∨
        ∃ list front run back prev first last cut,
          editor.detachSelection = (some ⟨first, last⟩, { document := cut, cursor := prev }) ∧
          Parted front run back prev first last ∧
          cut.Arranged (kids.set list (front ++ back)) run ∧
          cut.Chained (some list) none run none ∧
          ReflTransGen (kids.set list (front ++ back)).Holds root list) := by
  obtain ⟨strict, marks⟩ := selection_sound sound
  rw [Strict.detachSelection, strict, detachSelection]
  cases selected : editor.selection? with
  | none => exact ⟨rfl, .inl rfl⟩
  | some span =>
      obtain ⟨first, last⟩ := span
      obtain ⟨list, front, run, back, prev, split, parted⟩ := marks _ selected
      have arranged := sound.arranged
      have mem : first ∈ kids list := by simp [split, parted.first_mem]
      have reaches := arranged.root_reaches_cut split (arranged.isList_of_mem mem)
      obtain ⟨cut, cuts, arranged', chained, -⟩ := arranged.unlinkRun parted split
      have strict' := Document.Strict.unlinkRun_eq arranged parted split
      rw [List.append_nil] at arranged'
      simp only [selectNone, strict', cuts, Option.bind_eq_bind, Option.bind_some]
      exact ⟨rfl, .inr ⟨list, front, run, back, prev, first, last, cut, rfl, parted, arranged',
        chained, reaches⟩⟩

/-- Once all that is loose is freed, the cursor is still there if the root held it. -/
theorem sound_of_freed {document freed : Document} {loose : List NodeId}
    (removal : document.Freed freed kids loose) (arranged : document.Arranged kids loose)
    (mem : id ∈ kids list) (reaches : ReflTransGen kids.Holds root list) :
    ∃ kids', ({ document := freed, cursor := id } : Editor).Sound kids' := by
  obtain ⟨kids', arranged'⟩ := removal.result arranged
  have live := removal.live arranged (arranged.live_of_mem mem) (reaches.tail mem)
  obtain ⟨list', mem'⟩ := arranged'.exists_list live (arranged.ne_root mem)
  exact ⟨kids', arranged', list', mem', .inl ⟨rfl, rfl⟩⟩

theorem deleteSelection_sound (sound : editor.Sound kids) :
    Strict.deleteSelection editor = some editor.deleteSelection ∧
      ∃ kids', editor.deleteSelection.2.Sound kids' := by
  obtain ⟨strict, detached⟩ := detachSelection_sound sound
  rw [Strict.deleteSelection, strict, deleteSelection]
  rcases detached with detached | ⟨list, front, run, back, prev, first, last, cut, detached, parted,
    arranged, chained, reaches⟩
  · rw [detached]
    exact ⟨rfl, kids, sound⟩
  · have strict := Document.Strict.freeRun_eq arranged parted.nodup_run chained parted.starts
      parted.ends
    have freed := arranged.freeRun_freed parted.nodup_run (fun _ mem => mem) chained
      parted.starts parted.ends
    have mem : prev ∈ (kids.set list (front ++ back)) list := by
      rw [Contents.set_self]
      exact List.mem_append_left _ parted.prev_mem
    simp only [detached, strict, Option.bind_eq_bind, Option.bind_some]
    exact ⟨rfl, sound_of_freed freed arranged mem reaches⟩

theorem removeNext_sound (sound : editor.Sound kids)
    (unmarked : editor.anchor = none ∧ editor.reach = none) :
    Strict.removeNext editor = some editor.removeNext ∧ ∃ kids', editor.removeNext.Sound kids' := by
  obtain ⟨list, mem, -⟩ := sound.placed
  obtain ⟨init, rest, split⟩ := List.append_of_mem mem
  have next := sound.arranged.next? split
  rw [Strict.removeNext, removeNext, Document.about_of_live sound.live, next]
  simp only [Option.bind_eq_bind, Option.bind_some]
  cases rest with
  | nil => exact ⟨rfl, kids, sound⟩
  | cons passed back =>
      have whole : kids list = (init ++ [editor.cursor]) ++ [passed] ++ back := by simp [split]
      have parted : Parted (init ++ [editor.cursor]) [passed] back editor.cursor passed passed :=
        ⟨whole ▸ sound.arranged.nodup list, by simp, rfl, rfl⟩
      have reaches := sound.arranged.root_reaches_cut whole (sound.arranged.isList_of_mem mem)
      have strict := Document.Strict.unlinkRun_eq sound.arranged parted whole
      obtain ⟨cut, cuts, arranged, -, -⟩ := sound.arranged.unlinkRun parted whole
      have strict' := Document.Strict.free_eq arranged
      have mem' : editor.cursor ∈ (kids.set list (init ++ [editor.cursor] ++ back)) list := by
        rw [Contents.set_self]
        simp
      simp only [List.head?_cons, strict, cuts, Option.elim_some, strict', Option.bind_some]
      obtain ⟨kids', sound'⟩ := sound_of_freed arranged.free_freed arranged mem' reaches
      -- Removing keeps the marks of the selection, and there are none.
      refine ⟨rfl, kids', sound'.arranged, ?_⟩
      obtain ⟨list', mem'', -⟩ := sound'.placed
      exact ⟨list', mem'', .inl unmarked⟩

theorem unmarked_movePrev {motion : Motion} (plain : motion.select = false) :
    (editor.movePrev motion).2.anchor = none ∧ (editor.movePrev motion).2.reach = none := by
  have unmarked := unmarked_beginMove editor motion plain
  simp only [movePrev, plain]
  generalize editor.beginMove motion = editor at *
  split
  · exact unmarked
  · split
    · exact unmarked
    · split <;> exact unmarked

theorem deletePrev_sound (sound : editor.Sound kids) (stepIn stepOut : Bool) :
    Strict.deletePrev editor stepIn stepOut = some (editor.deletePrev stepIn stepOut) ∧
      ∃ kids', (editor.deletePrev stepIn stepOut).2.Sound kids' := by
  rw [Strict.deletePrev, deletePrev]
  by_cases selected : editor.hasSelection
  · rw [if_pos selected, if_pos selected]
    exact deleteSelection_sound sound
  · rw [if_neg selected, if_neg selected]
    obtain ⟨same, sound⟩ := movePrev_sound sound { stepIn, stepOut }
    have unmarked : (editor.movePrev { stepIn, stepOut }).2.anchor = none ∧
        (editor.movePrev { stepIn, stepOut }).2.reach = none := unmarked_movePrev rfl
    rw [same]
    generalize editor.movePrev { stepIn, stepOut } = moved at sound unmarked
    obtain ⟨moved, editor⟩ := moved
    cases moved with
    | true =>
        obtain ⟨same, sound⟩ := removeNext_sound sound unmarked
        simp only [Option.bind_eq_bind, Option.bind_some, same]
        exact ⟨rfl, sound⟩
    | false => exact ⟨rfl, kids, sound⟩

theorem deleteNext_sound (sound : editor.Sound kids) (stepIn stepOut : Bool) :
    Strict.deleteNext editor stepIn stepOut = some (editor.deleteNext stepIn stepOut) ∧
      ∃ kids', (editor.deleteNext stepIn stepOut).2.Sound kids' := by
  rw [Strict.deleteNext, deleteNext]
  by_cases selected : editor.hasSelection
  · rw [if_pos selected, if_pos selected]
    exact deleteSelection_sound sound
  · rw [if_neg selected, if_neg selected]
    obtain ⟨same, sound⟩ := moveNext_sound sound { stepIn, stepOut }
    rw [same]
    generalize editor.moveNext { stepIn, stepOut } = moved at sound
    obtain ⟨moved, editor⟩ := moved
    cases moved with
    | true => exact deletePrev_sound sound stepIn stepOut
    | false => exact ⟨rfl, kids, sound⟩

/-! ## Lists -/

theorem quoteSelection_sound (sound : editor.Sound kids) :
    Strict.quoteSelection editor = some editor.quoteSelection ∧
      ∃ kids', editor.quoteSelection.2.Sound kids' := by
  obtain ⟨strict, detached⟩ := detachSelection_sound sound
  rw [Strict.quoteSelection, strict, quoteSelection]
  rcases detached with detached | ⟨list, front, run, back, prev, first, last, cut, detached, parted,
    arranged, chained, reaches⟩
  · rw [detached]
    exact ⟨rfl, kids, sound⟩
  · have split : (kids.set list (front ++ back)) list = front ++ back := Contents.set_self
    have mem : prev ∈ (kids.set list (front ++ back)) list := by simp [parted.prev_mem]
    obtain ⟨inserted, head, kids', made, arranged', inner, around, chained', placed, -⟩ :=
      arranged.quoteRun parted split chained reaches
    have held : cut.slots.size ∈ kids' list := by simp [around]
    have known := arranged'.first?_of_cons inner
    -- The run that was cut out goes behind the head of the list that was made in its place.
    have inside : head ∈ kids' cut.slots.size := by simp [inner]
    have strict' := Document.Strict.spliceRunAfter_eq arranged' inside chained' parted.nodup_run
      parted.starts parted.ends
    simp only [detached, Document.Strict.insertListAfter_eq arranged mem, made, known,
      Option.getD_some, strict', Document.about_of_live (arranged'.live_of_mem held),
      Option.bind_eq_bind, Option.bind_some]
    refine ⟨rfl, _, placed, list, ?_, .inl ⟨rfl, rfl⟩⟩
    rw [Contents.set_of_ne (arranged'.ne_of_mem held).symm]
    exact held

theorem unquote_sound (sound : editor.Sound kids) :
    Strict.unquote editor = some editor.unquote ∧ ∃ kids', editor.unquote.2.Sound kids' := by
  have arranged := sound.arranged
  rw [Strict.unquote, unquote, Document.about_of_live sound.live]
  cases known : editor.document.isList editor.cursor with
  | false => exact ⟨rfl, kids, sound⟩
  | true =>
      obtain ⟨outer, mem, -⟩ := sound.placed
      obtain ⟨front, back, split⟩ := List.append_of_mem mem
      obtain ⟨head, rest, split', kind, first⟩ := arranged.exists_head known
      have whole : kids outer = front ++ [editor.cursor] ++ back := by simp [split]
      obtain ⟨_, _, kind⟩ := Document.isList_iff.1 known
      obtain ⟨prev, before⟩ := arranged.exists_before split (by simp [kind])
      have parted : Parted front [editor.cursor] back prev editor.cursor editor.cursor :=
        ⟨whole ▸ arranged.nodup outer, before, rfl, rfl⟩
      have reaches := arranged.root_reaches_cut whole (arranged.isList_of_mem mem)
      have strict := Document.Strict.unlinkRun_eq arranged parted whole
      obtain ⟨cut, cuts, arranged', -, -⟩ := arranged.unlinkRun parted whole
      have outside : prev ∈ (kids.set outer (front ++ back)) outer := by simp [parted.prev_mem]
      have inner : (kids.set outer (front ++ back)) editor.cursor = head :: rest := by
        rw [Contents.set_of_ne (arranged.ne_of_mem mem), split']
      have live : cut.Live editor.cursor := arranged'.live_of_start (by simp)
      simp only [selectNone, Document.Strict.children_eq arranged known, arranged.children known,
        split', List.tail_cons, strict, cuts, Option.bind_eq_bind, Option.bind_some, Bool.not_true,
        Bool.false_eq_true, if_false]
      rw [List.append_nil] at arranged'
      -- An empty list is only cut out and freed; else its children go where it was, before it is
      -- freed.
      cases rest with
      | nil =>
          have strict' : Document.Strict.freeShell cut editor.cursor =
              some (cut.freeShell editor.cursor) := Document.about_of_live live _
          show (Document.Strict.freeShell cut editor.cursor).bind _ = _ ∧ _
          rw [strict']
          exact ⟨rfl, sound_of_freed (arranged'.freeShell_freed inner) arranged' outside reaches⟩
      | cons first rest =>
          have ends : (first :: rest).getLast? = some ((first :: rest).getLast (by simp)) :=
            List.getLast?_eq_some_getLast _
          generalize (first :: rest).getLast (by simp) = last at ends
          have chained := arranged'.chained editor.cursor
          have nodup := arranged'.nodup editor.cursor
          rw [inner] at chained nodup
          have strict' := Document.Strict.spliceRunAfter_eq arranged' outside chained.2
            (List.nodup_cons.1 nodup).2 rfl ends
          have strict'' : Document.Strict.freeShell (cut.spliceRunAfter prev first last)
              editor.cursor = some ((cut.spliceRunAfter prev first last).freeShell editor.cursor) :=
            Document.about_of_live (by simpa using live) _
          obtain ⟨kids', arranged'', around, -⟩ :=
            arranged'.unquoteList List.not_mem_nil parted Contents.set_self inner rfl ends
              (arranged'.apart_of_root List.mem_cons_self reaches)
          have held : last ∈ kids' outer := by
            rw [around, List.append_assoc]
            exact List.mem_append_right _ (List.mem_append_left _ (List.mem_of_mem_getLast? ends))
          simp only [List.head?_cons, ends, strict', Option.map_some, Option.bind_some, strict'']
          exact ⟨rfl, kids', arranged'', outer, held, .inl ⟨rfl, rfl⟩⟩

/-! ## The whole document -/

/-- In an editor that was cleared there is the head of the root, with the cursor on it. -/
theorem exists_cleared (arranged : editor.document.Arranged kids []) :
    ∃ kids', editor.clear.document.Arranged kids' [] ∧ kids' root = [editor.clear.cursor] := by
  obtain ⟨head, rest, split, -, -⟩ := arranged.exists_head arranged.rooted
  have emptied := (arranged.rearranged_clear split).result arranged
  rw [List.append_nil] at emptied
  obtain ⟨kids', arranged', same⟩ := (arranged.clear_freed split).exists_rooted emptied
  have only : kids' root = [head] := by rw [same, Contents.set_self]
  have first : editor.document.clear.first? root = some head := arranged'.first?_of_cons only
  refine ⟨kids', arranged', ?_⟩
  rw [only, clear, Document.top, first, Option.getD_some]

theorem clear_sound (sound : editor.Sound kids) :
    Strict.clear editor = some editor.clear ∧ ∃ kids', editor.clear.Sound kids' := by
  obtain ⟨kids', arranged, only⟩ := exists_cleared sound.arranged
  rw [Strict.clear, Document.Strict.clear_eq sound.arranged]
  simp only [Option.bind_eq_bind, Option.bind_some,
    Document.about_of_live (Document.live_of_isList (show editor.document.clear.isList root = true
      from arranged.rooted))]
  have mem : editor.clear.cursor ∈ kids' root := by
    rw [only]
    exact List.mem_singleton_self _
  exact ⟨rfl, kids', arranged, root, mem, .inl ⟨rfl, rfl⟩⟩

theorem reclassify_sound (sound : editor.Sound kids) (classify : Classifier) :
    (editor.reclassify classify).Sound kids := by
  have heads : ∀ {id}, (editor.document.reclassify classify).kind? id = some .head ↔
      editor.document.kind? id = some .head :=
    Document.kind?_reclassify_iff classify fun _ _ => NodeKind.noConfusion
  obtain ⟨list, mem, selects⟩ := sound.placed
  refine ⟨sound.arranged.reclassify classify, list, mem, ?_⟩
  refine selects.imp id ?_
  rintro ⟨anchor, reach, isAnchor, isReach, child, child'⟩
  exact ⟨anchor, reach, isAnchor, isReach, ⟨child.1, heads.not.2 child.2⟩,
    child'.1, heads.not.2 child'.2⟩

end Editor

end LiveStack
