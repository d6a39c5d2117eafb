import LiveStack.Proofs.Document.Consistency
import LiveStack.Proofs.Editor.Strict

/-!
# Moves in a sound editor

An editor is sound if its document is arranged with nothing loose, its cursor is in a list, and its
selection, if there is one, has both ends among the children of that list. A move keeps an editor
sound and, done strictly, gives the same: it looks at no node that was removed, and a repeated move
comes to an end.
-/

namespace LiveStack

open Relation

open Document (root)

namespace Editor

variable {editor start : Editor} {kids : Contents} {list id passed : NodeId}

/-- A child of the list that is not its head. -/
def Child (editor : Editor) (kids : Contents) (list id : NodeId) : Prop :=
  id ∈ kids list ∧ editor.document.kind? id ≠ some .head

/-- Either nothing is selected, or the selection is between two children of the list. -/
def Selects (editor : Editor) (kids : Contents) (list : NodeId) : Prop :=
  (editor.anchor = none ∧ editor.reach = none) ∨
    ∃ anchor reach, editor.anchor = some anchor ∧ editor.reach = some reach ∧
      editor.Child kids list anchor ∧ editor.Child kids list reach

/-- The links of the document say what is in its lists, and the cursor and the selection are in
one of them. -/
structure Sound (editor : Editor) (kids : Contents) : Prop where
  arranged : editor.document.Arranged kids []
  placed : ∃ list, editor.cursor ∈ kids list ∧ editor.Selects kids list

theorem selects_selectNone : editor.selectNone.Selects kids list := .inl ⟨rfl, rfl⟩

namespace Sound

variable (sound : editor.Sound kids)

include sound

theorem live : editor.document.Live editor.cursor := by
  obtain ⟨list, mem, -⟩ := sound.placed
  exact sound.arranged.live_of_mem mem

theorem selectNone : editor.selectNone.Sound kids := by
  obtain ⟨list, mem, -⟩ := sound.placed
  exact ⟨sound.arranged, list, mem, selects_selectNone⟩

theorem beginMove (motion : Motion) : (editor.beginMove motion).Sound kids := by
  rw [Editor.beginMove]
  split
  · exact sound
  · exact sound.selectNone

/-- The selection does not go along with a move into another list. -/
theorem goTo (none : editor.anchor = none ∧ editor.reach = none) (mem : id ∈ kids list) :
    (editor.goTo id).2.Sound kids := ⟨sound.arranged, list, mem, .inl none⟩

end Sound

/-! ## Moves -/

/-- The selection stays in its list. -/
theorem extend_selects {beyond : Option NodeId} (arranged : editor.document.Arranged kids [])
    (selects : editor.Selects kids list) (child : editor.Child kids list passed)
    (inside : ∀ id, beyond = some id → id ∈ kids list) :
    Strict.extend editor passed beyond = some (editor.extend passed beyond) ∧
      (editor.extend passed beyond).document = editor.document ∧
        (editor.extend passed beyond).cursor = editor.cursor ∧
          (editor.extend passed beyond).Selects kids list := by
  rw [Strict.extend, extend]
  by_cases back : editor.anchor = some passed
  · rw [if_pos back, if_pos back]
    exact ⟨rfl, rfl, rfl, selects_selectNone⟩
  rw [if_neg back, if_neg back]
  have anchored : ∃ anchor, editor.anchor.or (some passed) = some anchor ∧
      editor.Child kids list anchor := by
    rcases selects with ⟨none, -⟩ | ⟨anchor, reach, isAnchor, -, child', -⟩
    · exact ⟨passed, by rw [none]; rfl, child⟩
    · exact ⟨anchor, by rw [isAnchor]; rfl, child'⟩
  -- Giving up the outermost node of the selection leads to the one beyond it.
  have reached : ∀ id, (if editor.reach = some passed then beyond else some passed) = some id →
      id ∈ kids list := by
    intro id known
    split at known
    · exact inside id known
    · exact Option.some.inj known ▸ child.1
  obtain ⟨anchor, isAnchor, anchorChild⟩ := anchored
  generalize (if editor.reach = some passed then beyond else some passed) = reach at reached
  cases reach with
  | none => exact ⟨rfl, rfl, rfl, selects_selectNone⟩
  | some id =>
      have mem := reached id rfl
      simp only [Document.about_of_live (arranged.live_of_mem mem), Option.bind_eq_bind,
        Option.bind_some]
      cases isHead : editor.document.isHead id with
      | true => exact ⟨rfl, rfl, rfl, selects_selectNone⟩
      | false =>
          refine ⟨rfl, rfl, rfl, .inr ⟨anchor, id, isAnchor, rfl, anchorChild, mem, ?_⟩⟩
          simpa [Document.isHead] using isHead

theorem whenWanted_some (wanted : Bool) (answer : Option NodeId) :
    Strict.whenWanted wanted (some answer) = some (if wanted then answer else none) := by
  cases wanted <;> rfl

namespace Sound

variable (sound : editor.Sound kids)

include sound

theorem exists_outer {outer : NodeId}
    (enclosing : editor.document.enclosing? editor.cursor = some outer) :
    ∃ list, outer ∈ kids list := by
  obtain ⟨list, mem, -⟩ := sound.placed
  obtain ⟨rfl, differs⟩ := sound.arranged.ne_root_of_enclosing? mem enclosing
  exact sound.arranged.exists_list (Document.live_of_isList (sound.arranged.isList_of_mem mem))
    differs

theorem outerPrev_eq : Strict.outerPrev editor.document editor.cursor =
    some ((editor.document.enclosing? editor.cursor).bind editor.document.prev?) := by
  rw [Strict.outerPrev, Document.about_of_live sound.live, Option.bind_eq_bind, Option.bind_some]
  cases known : editor.document.enclosing? editor.cursor with
  | none => rfl
  | some outer =>
      obtain ⟨list, mem⟩ := sound.exists_outer known
      exact Document.about_of_live (sound.arranged.live_of_mem mem) _

end Sound

theorem extendWhen_selects (wanted : Bool) {beyond : Option NodeId}
    (arranged : editor.document.Arranged kids []) (selects : editor.Selects kids list)
    (child : wanted = true → editor.Child kids list passed)
    (inside : wanted = true → ∀ id, beyond = some id → id ∈ kids list) :
    Strict.extendWhen wanted editor passed beyond =
        some (if wanted then editor.extend passed beyond else editor) ∧
      (if wanted then editor.extend passed beyond else editor).document = editor.document ∧
        (if wanted then editor.extend passed beyond else editor).cursor = editor.cursor ∧
          (if wanted then editor.extend passed beyond else editor).Selects kids list := by
  cases wanted with
  | true => exact extend_selects arranged selects (child rfl) (inside rfl)
  | false => exact ⟨rfl, rfl, rfl, selects⟩

theorem unmarked_beginMove (start : Editor) (motion : Motion) (plain : motion.select = false) :
    (start.beginMove motion).anchor = none ∧ (start.beginMove motion).reach = none := by
  rw [beginMove, plain]
  exact ⟨rfl, rfl⟩

/-- A move, done strictly, and where it ends. -/
theorem movePrev_sound (sound : start.Sound kids) (motion : Motion) :
    Strict.movePrev start motion = some (start.movePrev motion) ∧
      (start.movePrev motion).2.Sound kids := by
  have unmarked := unmarked_beginMove start motion
  have sound := sound.beginMove motion
  simp only [Strict.movePrev, movePrev]
  generalize start.beginMove motion = editor at *
  simp only [Document.about_of_live sound.live, whenWanted_some, Option.bind_eq_bind,
    Option.bind_some, sound.outerPrev_eq]
  have arranged := sound.arranged
  cases inner : (if (motion.stepIn && !motion.select) = true then
      editor.document.last? editor.cursor else none) with
  | some last =>
      obtain ⟨wanted, last'⟩ := Option.ite_none_right_eq_some.1 inner
      exact ⟨rfl, sound.goTo (unmarked (by simp_all)) (arranged.mem_of_last? last')⟩
  | none =>
      obtain ⟨list, mem, selects⟩ := sound.placed
      cases prev : editor.document.prev? editor.cursor with
      | some prev =>
          obtain ⟨mem', notHead⟩ := arranged.mem_of_prev? mem prev
          obtain ⟨strict, same, -, selects⟩ := extendWhen_selects motion.select arranged selects
            (fun _ => ⟨mem, notHead⟩) (fun _ id known => Option.some.inj known ▸ mem')
          simp only [strict, Option.bind_some]
          exact ⟨rfl, same.symm ▸ arranged, list, mem', selects⟩
      | none =>
          cases outer : (if (motion.stepOut && !motion.select) = true then
              (editor.document.enclosing? editor.cursor).bind editor.document.prev? else none) with
          | some prev =>
              obtain ⟨wanted, prev'⟩ := Option.ite_none_right_eq_some.1 outer
              obtain ⟨outer, enclosing, prev'⟩ := Option.bind_eq_some_iff.1 prev'
              obtain ⟨list', mem'⟩ := sound.exists_outer enclosing
              exact ⟨rfl, sound.goTo (unmarked (by simp_all)) (arranged.mem_of_prev? mem' prev').1⟩
          | none => exact ⟨rfl, sound⟩

theorem moveNext_sound (sound : start.Sound kids) (motion : Motion) :
    Strict.moveNext start motion = some (start.moveNext motion) ∧
      (start.moveNext motion).2.Sound kids := by
  have unmarked := unmarked_beginMove start motion
  have sound := sound.beginMove motion
  simp only [Strict.moveNext, moveNext]
  generalize start.beginMove motion = editor at *
  simp only [Document.about_of_live sound.live, whenWanted_some, Option.bind_eq_bind,
    Option.bind_some]
  have arranged := sound.arranged
  obtain ⟨list, mem, selects⟩ := sound.placed
  -- A selecting move never goes in or out, so only a step to the next node can extend a selection.
  cases follows : editor.document.next? editor.cursor with
  | some next =>
      obtain ⟨mem', notHead⟩ := arranged.mem_of_next? mem follows
      simp only [Document.about_of_live (arranged.live_of_mem mem'), whenWanted_some,
        Option.bind_some]
      cases inner : (if (motion.stepIn && !motion.select) = true then
          editor.document.first? next else none) with
      | some first =>
          obtain ⟨wanted, first'⟩ := Option.ite_none_right_eq_some.1 inner
          have plain : motion.select = false := by simp_all
          rw [plain]
          exact ⟨rfl, sound.goTo (unmarked plain) (arranged.mem_of_first? first')⟩
      | none =>
          cases select : motion.select with
          | false => exact ⟨rfl, sound.goTo (unmarked select) mem'⟩
          | true =>
              have beyond : ∀ id, editor.document.next? next = some id → id ∈ kids list :=
                fun id known => (arranged.mem_of_next? mem' known).1
              obtain ⟨strict, same, stays, selects⟩ := extendWhen_selects true
                (show (editor.goTo next).2.document.Arranged kids [] from arranged) selects
                (fun _ => ⟨mem', notHead⟩) (fun _ => beyond)
              simp only [goTo, if_true] at strict same stays selects
              simp only [Option.getD_none, goTo, whenWanted_some, if_true, strict, Option.bind_some,
                Document.about_of_live (arranged.live_of_mem mem')]
              exact ⟨rfl, same.symm ▸ arranged, list, stays.symm ▸ mem', selects⟩
  | none =>
      cases outer : (if (motion.stepOut && !motion.select) = true then
          editor.document.enclosing? editor.cursor else none) with
      | some outer =>
          obtain ⟨wanted, enclosing⟩ := Option.ite_none_right_eq_some.1 outer
          obtain ⟨list', mem'⟩ := sound.exists_outer enclosing
          exact ⟨rfl, sound.goTo (unmarked (by simp_all)) mem'⟩
      | none => exact ⟨rfl, sound⟩

/-- Closing a list at its end goes onto the list. -/
theorem closeList_of_last {outer : NodeId} (arranged : editor.document.Arranged kids [])
    (ends : (kids list).getLast? = some editor.cursor) (held : list ∈ kids outer) :
    editor.closeList = (true, { editor.selectNone with cursor := list }) := by
  obtain ⟨init, last⟩ := List.getLast?_eq_some_iff.1 ends
  have next : editor.document.next? editor.cursor = none := arranged.next? last
  have enclosing := arranged.enclosing?_of_mem (List.mem_of_mem_getLast? ends) held
  simp [closeList, moveNext, beginMove, goTo, selectNone, next, enclosing]

/-! ## Repeated moves -/

/-- How a strict move goes with a move: it gives the same, and the editor stays sound. -/
def Agrees (kids : Contents) (strict : Editor → Option (Bool × Editor))
    (move : Editor → Bool × Editor) : Prop :=
  ∀ {editor : Editor}, editor.Sound kids →
    strict editor = some (move editor) ∧ (move editor).2.Sound kids

theorem moveOr_sound {strict strict' : Editor → Option (Bool × Editor)}
    {first second : Editor → Bool × Editor} (agrees : Agrees kids strict first)
    (agrees' : Agrees kids strict' second) :
    Agrees kids (Strict.moveOr strict strict') (moveOr first second) := by
  intro editor sound
  obtain ⟨same, sound⟩ := agrees sound
  rw [Strict.moveOr, moveOr, same]
  generalize first editor = moved at sound
  obtain ⟨moved, editor⟩ := moved
  cases moved with
  | true => exact ⟨rfl, sound⟩
  | false => exact agrees' sound

/-- A move that comes nearer to something each time can be repeated until it stops. -/
theorem repeatMove_sound {strict : Editor → Option (Bool × Editor)}
    {move : Editor → Bool × Editor} {Far : Editor → Nat → Prop} {far count : Nat}
    (agrees : Agrees kids strict move)
    (nearer : ∀ {editor far}, editor.Sound kids → Far editor far → (move editor).1 = true →
      ∃ near < far, Far (move editor).2 near)
    (sound : editor.Sound kids) (isFar : Far editor far) (enough : far < count) :
    Strict.repeatMove strict count editor = some (repeatMove move count editor) ∧
      (repeatMove move count editor).Sound kids := by
  induction count generalizing editor far with
  | zero => cases enough
  | succ count ih =>
      have nearer := nearer sound isFar
      obtain ⟨same, sound⟩ := agrees sound
      rw [Strict.repeatMove, repeatMove, same]
      generalize move editor = moved at sound nearer
      obtain ⟨moved, editor⟩ := moved
      cases moved with
      | true =>
          obtain ⟨near, lt, isNear⟩ := nearer rfl
          exact ih sound isNear (Nat.lt_of_lt_of_le lt (Nat.le_of_lt_succ enough))
      | false => exact ⟨rfl, sound⟩

theorem cursor_extend (beyond : Option NodeId) :
    (editor.extend passed beyond).cursor = editor.cursor := by
  rw [extend]
  by_cases back : editor.anchor = some passed
  · rw [if_pos back]
    rfl
  · rw [if_neg back]
    dsimp only
    generalize (if editor.reach = some passed then beyond else some passed) = reach
    cases reach with
    | none => rfl
    | some id => cases isHead : editor.document.isHead id <;> simp [isHead, selectNone]

/-- Moving back without stepping goes to the sibling before. -/
theorem prev?_of_movePrev {select : Bool} (moved : (editor.movePrev { select }).1 = true) :
    editor.document.prev? editor.cursor = some (editor.movePrev { select }).2.cursor := by
  simp only [movePrev, Bool.false_and, Bool.false_eq_true, if_false] at moved ⊢
  have same : (editor.beginMove { select }).document = editor.document ∧
      (editor.beginMove { select }).cursor = editor.cursor := by cases select <;> exact ⟨rfl, rfl⟩
  rw [same.1, same.2] at moved ⊢
  cases prev : editor.document.prev? editor.cursor with
  | none => simp [prev] at moved
  | some prev => rfl

/-- Moving forward without stepping goes to the sibling after. -/
theorem next?_of_moveNext {select : Bool} (moved : (editor.moveNext { select }).1 = true) :
    editor.document.next? editor.cursor = some (editor.moveNext { select }).2.cursor := by
  simp only [moveNext, Bool.false_and, Bool.false_eq_true, if_false] at moved ⊢
  have same : (editor.beginMove { select }).document = editor.document ∧
      (editor.beginMove { select }).cursor = editor.cursor := by cases select <;> exact ⟨rfl, rfl⟩
  rw [same.1, same.2] at moved ⊢
  cases next : editor.document.next? editor.cursor with
  | none => simp [next] at moved
  | some next =>
      cases select with
      | false => rfl
      | true =>
          simp only [if_true, goTo]
          rw [cursor_extend]
          rfl

/-- How many siblings are before the cursor. -/
def Before (kids : Contents) (editor : Editor) (count : Nat) : Prop :=
  ∃ list front back, kids list = front ++ editor.cursor :: back ∧ front.length = count

/-- How many siblings are after the cursor. -/
def After (kids : Contents) (editor : Editor) (count : Nat) : Prop :=
  ∃ list front back, kids list = front ++ editor.cursor :: back ∧ back.length = count

theorem repeatBack_sound (select : Bool) (sound : editor.Sound kids) :
    Strict.repeatMove (Strict.movePrev · { select }) editor.document.chainLimit editor =
        some (repeatMove (movePrev · { select }) editor.document.chainLimit editor) ∧
      (repeatMove (movePrev · { select }) editor.document.chainLimit editor).Sound kids := by
  obtain ⟨list, mem, -⟩ := sound.placed
  obtain ⟨front, back, split⟩ := List.append_of_mem mem
  have length := sound.arranged.length_le list
  rw [split, List.length_append, List.length_cons] at length
  refine repeatMove_sound (fun sound => movePrev_sound sound { select }) ?_ sound
    (show Before kids editor front.length from ⟨list, front, back, split, rfl⟩) ?_
  · rintro editor _ sound ⟨list, front, back, split, rfl⟩ moved
    have prev := prev?_of_movePrev moved
    rw [sound.arranged.prev? split] at prev
    obtain ⟨init, rfl⟩ := List.getLast?_eq_some_iff.1 prev
    exact ⟨init.length, by simp, list, init, editor.cursor :: back, by simp [split], rfl⟩
  · rw [Document.chainLimit]
    omega

theorem repeatForth_sound (select : Bool) (sound : editor.Sound kids) :
    Strict.repeatMove (Strict.moveNext · { select }) editor.document.chainLimit editor =
        some (repeatMove (moveNext · { select }) editor.document.chainLimit editor) ∧
      (repeatMove (moveNext · { select }) editor.document.chainLimit editor).Sound kids := by
  obtain ⟨list, mem, -⟩ := sound.placed
  obtain ⟨front, back, split⟩ := List.append_of_mem mem
  have length := sound.arranged.length_le list
  rw [split, List.length_append, List.length_cons] at length
  refine repeatMove_sound (fun sound => moveNext_sound sound { select }) ?_ sound
    (show After kids editor back.length from ⟨list, front, back, split, rfl⟩) ?_
  · rintro editor _ sound ⟨list, front, back, split, rfl⟩ moved
    have next := next?_of_moveNext moved
    rw [sound.arranged.next? split] at next
    obtain ⟨rest, rfl⟩ := List.head?_eq_some_iff.1 next
    exact ⟨rest.length, by simp, list, front ++ [editor.cursor], rest, by simp [split], rfl⟩
  · rw [Document.chainLimit]
    omega

theorem moveFirst_sound (select : Bool) :
    Agrees kids (Strict.moveFirst · select) (moveFirst · select) := by
  intro editor sound
  have first := moveOr_sound (fun sound => movePrev_sound sound { select })
    (fun sound => movePrev_sound sound { select, stepOut := true }) sound
  obtain ⟨same, sound⟩ := first
  have repeated := repeatBack_sound select sound
  simp only [Strict.moveFirst, moveFirst, same, Option.bind_eq_bind, Option.bind_some, repeated.1]
  exact ⟨rfl, repeated.2⟩

theorem moveLast_sound (select : Bool) :
    Agrees kids (Strict.moveLast · select) (moveLast · select) := by
  intro editor sound
  have first := moveOr_sound (fun sound => moveNext_sound sound { select })
    (fun sound => moveNext_sound sound { select, stepOut := true }) sound
  obtain ⟨same, sound⟩ := first
  have repeated := repeatForth_sound select sound
  simp only [Strict.moveLast, moveLast, same, Option.bind_eq_bind, Option.bind_some, repeated.1]
  exact ⟨rfl, repeated.2⟩

end Editor

end LiveStack
