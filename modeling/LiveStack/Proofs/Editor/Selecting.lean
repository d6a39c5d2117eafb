import LiveStack.Proofs.Editor.Soundness

/-!
# Selecting moves

While a selection is taken along, it is what lies between two places: where the cursor was when
nothing was selected, the origin, and where it is now. A move goes over one node at a time. It adds
that node to the run or gives it up, depending on which of the two places comes first in the list,
and at the origin itself nothing is selected. The two ends that an editor keeps are read off this
run, so they never need to be followed one by one.
-/

namespace LiveStack

namespace Editor

variable {editor : Editor} {kids : Contents} {list origin passed other : NodeId}
  {front run back : List NodeId} {motion : Motion}

/-- The run that is selected in a list, from the origin to the cursor. It lies strictly after the
earlier of the two and goes up to the later one. -/
inductive SelectedFrom (editor : Editor) (kids : Contents) (list origin : NodeId) :
    List NodeId → Prop
  /-- The cursor is not before the origin: the end that stays is the first of the run. -/
  | forward {front run back : List NodeId} (split : kids list = front ++ run ++ back)
      (start : front.getLast? = some origin) (stop : (front ++ run).getLast? = some editor.cursor)
      (anchor : editor.anchor = run.head?) (reach : editor.reach = run.getLast?) :
      SelectedFrom editor kids list origin run
  /-- The cursor is not behind the origin: the end that stays is the last of the run. -/
  | backward {front run back : List NodeId} (split : kids list = front ++ run ++ back)
      (start : (front ++ run).getLast? = some origin) (stop : front.getLast? = some editor.cursor)
      (anchor : editor.anchor = run.getLast?) (reach : editor.reach = run.head?) :
      SelectedFrom editor kids list origin run

/-! ## One node at a time -/

/-- Passing over the end that stays drops the selection. -/
theorem extend_anchor (anchor : editor.anchor = some passed) (beyond : Option NodeId) :
    editor.extend passed beyond = editor.selectNone := by
  rw [extend, if_pos anchor]

/-- Passing over the end that moves gives the node up: the node beyond is the end then. -/
theorem extend_reach (anchor : editor.anchor ≠ some passed) (reach : editor.reach = some passed)
    (child : editor.document.isHead other = false) :
    editor.extend passed (some other) =
      { editor with anchor := editor.anchor.or (some passed), reach := some other } := by
  rw [extend, if_neg anchor]
  simp [reach, child]

/-- Passing over any other node selects it. -/
theorem extend_other (anchor : editor.anchor ≠ some passed) (reach : editor.reach ≠ some passed)
    (child : editor.document.isHead passed = false) (beyond : Option NodeId) :
    editor.extend passed beyond =
      { editor with anchor := editor.anchor.or (some passed), reach := some passed } := by
  rw [extend, if_neg anchor]
  simp [reach, child]

/-- A selecting move back takes the selection along over the node it leaves. -/
theorem movePrev_of_select (select : motion.select = true) :
    editor.movePrev motion =
      match editor.document.prev? editor.cursor with
      | some prev => (editor.extend editor.cursor (some prev)).goTo prev
      | none => (false, editor) := by
  cases before : editor.document.prev? editor.cursor with
  | none => simp [movePrev, beginMove, select, before]
  | some prev => simp [movePrev, beginMove, select, before]

/-- A selecting move forward takes the selection along over the node it comes to. -/
theorem moveNext_of_select (select : motion.select = true) :
    editor.moveNext motion =
      match editor.document.next? editor.cursor with
      | some next => (true, (editor.goTo next).2.extend next (editor.document.next? next))
      | none => (false, editor) := by
  cases after : editor.document.next? editor.cursor with
  | none => simp [moveNext, beginMove, select, after]
  | some next => simp [moveNext, beginMove, select, after, goTo]

theorem document_extend (beyond : Option NodeId) :
    (editor.extend passed beyond).document = editor.document := by
  rw [extend]
  by_cases back : editor.anchor = some passed
  · rw [if_pos back]
    rfl
  · rw [if_neg back]
    dsimp only
    generalize (if editor.reach = some passed then beyond else some passed) = reach
    cases reach with
    | none => rfl
    | some id => cases isHead : editor.document.isHead id <;> simp [isHead, selectNone]

/-- A selecting move changes nothing of the document. -/
theorem document_movePrev (select : motion.select = true) :
    (editor.movePrev motion).2.document = editor.document := by
  rw [movePrev_of_select select]
  split
  · exact document_extend _
  · rfl

theorem document_moveNext (select : motion.select = true) :
    (editor.moveNext motion).2.document = editor.document := by
  rw [moveNext_of_select select]
  split
  · exact document_extend _
  · rfl

theorem selectedFrom_self (mem : editor.cursor ∈ kids list)
    (unmarked : editor.anchor = none ∧ editor.reach = none) :
    editor.SelectedFrom kids list editor.cursor [] := by
  obtain ⟨front, back, split⟩ := List.append_of_mem mem
  have around : kids list = (front ++ [editor.cursor]) ++ [] ++ back := by simp [split]
  exact .forward around (by simp) (by simp) unmarked.1 unmarked.2

namespace SelectedFrom

variable (arranged : editor.document.Arranged kids [])

include arranged

/-- Before the origin, a move back selects the node it leaves. -/
theorem movePrev_of_backward (select : motion.select = true)
    (split : kids list = front ++ run ++ back) (start : (front ++ run).getLast? = some origin)
    (stop : front.getLast? = some editor.cursor) (anchor : editor.anchor = run.getLast?)
    (reach : editor.reach = run.head?) :
    ∃ run', (editor.movePrev motion).2.SelectedFrom kids list origin run' := by
  obtain ⟨init, rfl⟩ := List.getLast?_eq_some_iff.1 stop
  have atCursor : kids list = init ++ editor.cursor :: (run ++ back) := by simp [split]
  rw [movePrev_of_select select, arranged.prev? atCursor]
  cases before : init.getLast? with
  | none => exact ⟨run, .backward split start stop anchor reach⟩
  | some prev =>
      have notHead : editor.document.isHead editor.cursor = false :=
        decide_eq_false (arranged.kind?_ne_head atCursor (by rintro rfl; cases before))
      -- the cursor is before the run, so it is at neither end of it
      have outside : editor.cursor ∉ run := by
        have nodup := arranged.nodup list
        rw [atCursor, List.nodup_append, List.nodup_cons] at nodup
        exact fun mem => nodup.2.1.1 (List.mem_append_left _ mem)
      have notAnchor : editor.anchor ≠ some editor.cursor := by
        rw [anchor]
        exact fun same => outside (List.mem_of_mem_getLast? same)
      have notReach : editor.reach ≠ some editor.cursor := by
        rw [reach]
        exact fun same => outside (List.mem_of_mem_head? same)
      dsimp only
      rw [extend_other notAnchor notReach notHead]
      have around : kids list = init ++ (editor.cursor :: run) ++ back := by simp [split]
      refine ⟨editor.cursor :: run, .backward around ?_ before ?_ rfl⟩
      · simpa using start
      · show editor.anchor.or (some editor.cursor) = (editor.cursor :: run).getLast?
        rw [anchor, List.getLast?_cons]
        cases run.getLast? <;> rfl

/-- Behind the origin, a move forward selects the node it comes to. -/
theorem moveNext_of_forward (select : motion.select = true)
    (split : kids list = front ++ run ++ back) (start : front.getLast? = some origin)
    (stop : (front ++ run).getLast? = some editor.cursor) (anchor : editor.anchor = run.head?)
    (reach : editor.reach = run.getLast?) :
    ∃ run', (editor.moveNext motion).2.SelectedFrom kids list origin run' := by
  obtain ⟨init, whole⟩ := List.getLast?_eq_some_iff.1 stop
  have atCursor : kids list = init ++ editor.cursor :: back := by simp [split, whole]
  rw [moveNext_of_select select, arranged.next? atCursor]
  cases back with
  | nil => exact ⟨run, .forward split start stop anchor reach⟩
  | cons next back =>
      have atNext : kids list = (front ++ run) ++ next :: back := by simp [split]
      have notHead : editor.document.isHead next = false :=
        decide_eq_false (arranged.kind?_ne_head atNext (by rw [whole]; simp))
      -- the next node is behind the run, so it is at neither end of it
      have outside : next ∉ run := by
        have nodup := arranged.nodup list
        rw [atNext, List.nodup_append] at nodup
        exact fun mem => nodup.2.2 next (List.mem_append_right _ mem) next List.mem_cons_self rfl
      have notAnchor : (editor.goTo next).2.anchor ≠ some next := by
        show editor.anchor ≠ some next
        rw [anchor]
        exact fun same => outside (List.mem_of_mem_head? same)
      have notReach : (editor.goTo next).2.reach ≠ some next := by
        show editor.reach ≠ some next
        rw [reach]
        exact fun same => outside (List.mem_of_mem_getLast? same)
      simp only [List.head?_cons]
      rw [extend_other notAnchor notReach notHead]
      have around : kids list = front ++ (run ++ [next]) ++ back := by simp [split]
      refine ⟨run ++ [next], .forward around start ?_ ?_ ?_⟩
      · simp [goTo]
      · show editor.anchor.or (some next) = (run ++ [next]).head?
        rw [anchor, List.head?_append]
        rfl
      · simp

variable (selected : editor.SelectedFrom kids list origin run)

include selected

/-- A selecting move back keeps the origin. -/
theorem movePrev (select : motion.select = true) :
    ∃ run', (editor.movePrev motion).2.SelectedFrom kids list origin run' := by
  cases selected with
  | backward split start stop anchor reach =>
      exact movePrev_of_backward arranged select split start stop anchor reach
  | @forward front _ back split start stop anchor reach =>
      rcases run.eq_nil_or_concat with rfl | ⟨rest, last, rfl⟩
      · -- nothing is selected: the cursor is at the origin, and may as well go back from it
        rw [List.append_nil] at stop
        obtain rfl : origin = editor.cursor := Option.some.inj (start.symm.trans stop)
        exact movePrev_of_backward arranged select split (by simpa using stop) stop anchor reach
      · -- the cursor is on the last of the run, which is given up
        rw [List.concat_eq_append] at split stop anchor reach
        obtain rfl : last = editor.cursor := by simpa using stop
        have atCursor : kids list = (front ++ rest) ++ editor.cursor :: back := by simp [split]
        rw [List.getLast?_concat] at reach
        rw [movePrev_of_select select, arranged.prev? atCursor]
        cases rest with
        | nil =>
            -- it is the only one, so the cursor comes back to the origin
            rw [List.append_nil, start]
            dsimp only
            rw [extend_anchor anchor]
            have around : kids list = front ++ [] ++ editor.cursor :: back := by simp [split]
            refine ⟨[], .forward around start ?_ rfl rfl⟩
            rw [List.append_nil, start]
            rfl
        | cons first middle =>
            have nodup := arranged.nodup list
            rw [atCursor, List.nodup_append] at nodup
            have apart : first ≠ editor.cursor := nodup.2.2 first (by simp) _ List.mem_cons_self
            have notAnchor : editor.anchor ≠ some editor.cursor := by
              rw [anchor]
              exact fun same => apart (Option.some.inj same)
            obtain ⟨init, before, same⟩ : ∃ init before, first :: middle = init ++ [before] :=
              ⟨_, _, (List.dropLast_append_getLast (by simp)).symm⟩
            have atBefore : kids list = (front ++ init) ++ before :: editor.cursor :: back := by
              simp [split, same]
            have notHead : editor.document.isHead before = false :=
              decide_eq_false (arranged.kind?_ne_head atBefore (by
                obtain ⟨_, rfl⟩ := List.getLast?_eq_some_iff.1 start
                simp))
            have ends : (front ++ first :: middle).getLast? = some before := by simp [same]
            rw [ends]
            dsimp only
            rw [extend_reach notAnchor reach notHead]
            have around : kids list = front ++ (first :: middle) ++ editor.cursor :: back := by
              simp [split]
            refine ⟨first :: middle, .forward around start ends ?_ ?_⟩
            · show editor.anchor.or (some editor.cursor) = some first
              rw [anchor]
              rfl
            · show some before = (first :: middle).getLast?
              simp [same]

/-- A selecting move forward keeps the origin. -/
theorem moveNext (select : motion.select = true) :
    ∃ run', (editor.moveNext motion).2.SelectedFrom kids list origin run' := by
  cases selected with
  | forward split start stop anchor reach =>
      exact moveNext_of_forward arranged select split start stop anchor reach
  | @backward front _ back split start stop anchor reach =>
      cases run with
      | nil =>
          -- nothing is selected: the cursor is at the origin, and may as well go forward from it
          rw [List.append_nil] at start
          obtain rfl : origin = editor.cursor := Option.some.inj (start.symm.trans stop)
          exact moveNext_of_forward arranged select split stop (by simpa using stop) anchor reach
      | cons next rest =>
          -- the cursor comes to the first of the run, which is given up
          obtain ⟨init, rfl⟩ := List.getLast?_eq_some_iff.1 stop
          have atCursor : kids list = init ++ editor.cursor :: (next :: rest ++ back) := by
            simp [split]
          have atNext : kids list = (init ++ [editor.cursor]) ++ next :: (rest ++ back) := by
            simp [split]
          rw [moveNext_of_select select, arranged.next? atCursor]
          simp only [List.cons_append, List.head?_cons]
          rw [arranged.next? atNext]
          cases rest with
          | nil =>
              -- it is the only one, so the cursor comes back to the origin
              obtain rfl : next = origin := by simpa using start
              rw [extend_anchor (show (editor.goTo next).2.anchor = some next from anchor)]
              have around : kids list = (init ++ [editor.cursor] ++ [next]) ++ [] ++ back := by
                simp [split]
              exact ⟨[], .forward around (by simp) (by simp [goTo, selectNone]) rfl rfl⟩
          | cons second rest =>
              have nodup := arranged.nodup list
              rw [atNext, List.nodup_append, List.nodup_cons] at nodup
              have notAnchor : (editor.goTo next).2.anchor ≠ some next := by
                show editor.anchor ≠ some next
                rw [anchor, List.getLast?_cons_cons]
                intro same
                exact nodup.2.1.1 (List.mem_append_left _ (List.mem_of_mem_getLast? same))
              have atSecond : kids list =
                  (init ++ [editor.cursor] ++ [next]) ++ second :: (rest ++ back) := by simp [split]
              have notHead : editor.document.isHead second = false :=
                decide_eq_false (arranged.kind?_ne_head atSecond (by simp))
              simp only [List.cons_append, List.head?_cons]
              rw [extend_reach notAnchor reach notHead]
              have around : kids list =
                  (init ++ [editor.cursor] ++ [next]) ++ (second :: rest) ++ back := by simp [split]
              refine ⟨second :: rest, .backward around ?_ (by simp [goTo]) ?_ rfl⟩
              · simpa using start
              · show editor.anchor.or (some next) = (second :: rest).getLast?
                rw [anchor, List.getLast?_cons_cons]
                cases ends : (second :: rest).getLast? with
                | none => simp at ends
                | some _ => rfl

end SelectedFrom

/-! ## Many moves -/

theorem moveOr_keeps {P : Editor → Prop} {first second : Editor → Bool × Editor}
    (keeps : ∀ {editor}, P editor → P (first editor).2)
    (keeps' : ∀ {editor}, P editor → P (second editor).2) (start : P editor) :
    P (moveOr first second editor).2 := by
  rw [moveOr]
  have next := keeps start
  split
  · next same => rwa [same] at next
  · next same =>
      rw [same] at next
      exact keeps' next

theorem repeatMove_keeps {P : Editor → Prop} {move : Editor → Bool × Editor}
    (keeps : ∀ {editor}, P editor → P (move editor).2) (count : Nat) (start : P editor) :
    P (repeatMove move count editor) := by
  induction count generalizing editor with
  | zero => exact start
  | succ count ih =>
      rw [repeatMove]
      have next := keeps start
      split
      · next same =>
          rw [same] at next
          exact ih next
      · next same => rwa [same] at next

/-- What single moves back keep, going to the front keeps. -/
theorem moveFirst_keeps {P : Editor → Prop} {select : Bool}
    (keeps : ∀ {editor} stepOut, P editor → P (editor.movePrev { select, stepOut }).2)
    (start : P editor) : P (editor.moveFirst select).2 := by
  simp only [moveFirst]
  exact repeatMove_keeps (keeps false) _ (moveOr_keeps (keeps false) (keeps true) start)

theorem moveLast_keeps {P : Editor → Prop} {select : Bool}
    (keeps : ∀ {editor} stepOut, P editor → P (editor.moveNext { select, stepOut }).2)
    (start : P editor) : P (editor.moveLast select).2 := by
  simp only [moveLast]
  exact repeatMove_keeps (keeps false) _ (moveOr_keeps (keeps false) (keeps true) start)

/-- A move that takes the selection along. -/
inductive SelectingMove where
  | prev (stepIn stepOut : Bool)
  | next (stepIn stepOut : Bool)
  | first
  | last
deriving DecidableEq, Repr

/-- The editor after a selecting move. -/
def SelectingMove.perform (editor : Editor) : SelectingMove → Editor
  | .prev stepIn stepOut => (editor.movePrev { stepIn, stepOut, select := true }).2
  | .next stepIn stepOut => (editor.moveNext { stepIn, stepOut, select := true }).2
  | .first => (editor.moveFirst true).2
  | .last => (editor.moveLast true).2

/-- The editor is on the document, with a run selected from the origin. -/
def Began (document : Document) (kids : Contents) (list origin : NodeId) (editor : Editor) :
    Prop :=
  editor.document = document ∧ ∃ run, editor.SelectedFrom kids list origin run

section Began

variable {document : Document} (arranged : document.Arranged kids [])

include arranged

theorem Began.movePrev (began : Began document kids list origin editor)
    (select : motion.select = true) :
    Began document kids list origin (editor.movePrev motion).2 := by
  obtain ⟨rfl, _, selected⟩ := began
  exact ⟨document_movePrev select, selected.movePrev arranged select⟩

theorem Began.moveNext (began : Began document kids list origin editor)
    (select : motion.select = true) :
    Began document kids list origin (editor.moveNext motion).2 := by
  obtain ⟨rfl, _, selected⟩ := began
  exact ⟨document_moveNext select, selected.moveNext arranged select⟩

theorem Began.perform (began : Began document kids list origin editor) (move : SelectingMove) :
    Began document kids list origin (SelectingMove.perform editor move) := by
  cases move with
  | prev stepIn stepOut => exact began.movePrev arranged rfl
  | next stepIn stepOut => exact began.moveNext arranged rfl
  | first => exact moveFirst_keeps (fun _ began => Began.movePrev arranged began rfl) began
  | last => exact moveLast_keeps (fun _ began => Began.moveNext arranged began rfl) began

/-- However many selecting moves are made, the selection is that from the origin. -/
theorem Began.performAll (began : Began document kids list origin editor)
    (moves : List SelectingMove) :
    Began document kids list origin (moves.foldl SelectingMove.perform editor) := by
  induction moves generalizing editor with
  | nil => exact began
  | cons move rest ih => exact ih (began.perform arranged move)

end Began

end Editor

end LiveStack
