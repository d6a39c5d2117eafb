import LiveStack.Proofs.Document.Strict

/-!
# The check comes to an end

The check of the links is made for links that may lead anywhere, and it keeps no record of where
it has been. It ends all the same, because it follows a link only to a node whose own links lead
back: from a list down to a head that has the list as its list and nothing before it, and along to
a node that has the one before as its `prev`. So on its way down and along no node comes twice,
and it needs no more rounds than there are slots.
-/

namespace LiveStack

open Relation

/-- The numbers of other nodes that a node holds. -/
def Node.mentions (node : Node) : List NodeId :=
  node.prev.toList ++ node.next.toList ++ node.parent.toList ++
    match node.kind with
    | .list first last => [first, last]
    | _ => []

namespace Document

variable {document : Document} {list id other first next : NodeId} {fuel count : Nat}
  {answer : Bool}

/-- No node that was removed is mentioned by one that was not. -/
def Wired (document : Document) : Prop :=
  ∀ id node, document.get? id = some node → ∀ other ∈ node.mentions, document.Live other

instance : Decidable document.Wired :=
  decidable_of_iff (∀ id < document.slots.size, ∀ node ∈ document.get? id,
    ∀ other ∈ node.mentions, (document.get? other).isSome)
    ⟨fun wired id node found => wired id (lt_size_of_live (Option.isSome_of_mem found)) node found,
      fun wired id _ node found => wired id node found⟩

theorem live_of_parent? (parent : document.parent? id = some list) : document.Live id := by
  rw [Live]
  rw [Document.parent?] at parent
  cases found : document.get? id with
  | some node => rfl
  | none =>
      rw [found] at parent
      cases parent

namespace Wired

variable (wired : document.Wired)

include wired

theorem live_of_next? (next : document.next? id = some other) : document.Live other := by
  rw [Document.next?, Option.bind_eq_some_iff] at next
  obtain ⟨node, found, next⟩ := next
  exact wired id node found other (by simp [Node.mentions, next])

theorem live_of_first? (first : document.first? id = some other) : document.Live other := by
  rw [first?] at first
  split at first
  · next head last kind =>
      rw [kind?, Option.map_eq_some_iff] at kind
      obtain ⟨node, found, kind⟩ := kind
      cases first
      exact wired id node found other (by simp [Node.mentions, kind])
  · cases first

end Wired

/-! ## One round of the check -/

/-- What a list has for its first node is its head, with the list as its list. -/
def Heads (document : Document) (list first : NodeId) : Prop :=
  document.isHead first = true ∧ document.prev? first = none ∧ document.parent? first = some list

instance : Decidable (document.Heads list first) := inferInstanceAs (Decidable (_ ∧ _))

/-- What the check says of all that is in a node. -/
def checkInside? (document : Document) (fuel : Nat) (id : NodeId) : Option Bool :=
  match document.first? id with
  | some first =>
      if document.Heads id first then document.checkFrom? fuel id first else some false
  | none => some true

/-- What the check says of all that comes behind a node in its list. -/
def checkBehind? (document : Document) (fuel : Nat) (list id : NodeId) : Option Bool :=
  match document.next? id with
  | some next =>
      if document.prev? next ≠ some id ∨ document.isHead next then some false
      else document.checkFrom? fuel list next
  | none => some (document.last? list = some id)

/-- What the check says of the chain from a node on: what is behind the node counts only if the
node is in the list, and all that is in it is right. -/
theorem checkFrom?_succ : document.checkFrom? (fuel + 1) list id =
    if document.parent? id ≠ some list then some false
    else match document.checkInside? fuel id with
      | some true => document.checkBehind? fuel list id
      | stopped => stopped := by
  rw [checkFrom?, checkInside?, first?]
  cases document.kind? id with
  | none => rfl
  | some kind => cases kind <;> rfl

theorem checkFrom?_of_parent (parent : document.parent? id = some list)
    (inside : document.checkInside? fuel id = some true) :
    document.checkFrom? (fuel + 1) list id = document.checkBehind? fuel list id := by
  rw [checkFrom?_succ, parent, inside, if_neg (not_not.2 rfl)]

/-- The check passes from a node on just if the node is in the list, and it passes for all that is
in the node and for all that is behind it. -/
theorem checkFrom?_eq_true_iff : document.checkFrom? (fuel + 1) list id = some true ↔
    document.parent? id = some list ∧ document.checkInside? fuel id = some true ∧
      document.checkBehind? fuel list id = some true := by
  constructor
  · intro passed
    by_cases parent : document.parent? id = some list
    · cases inside : document.checkInside? fuel id with
      | none => simp [checkFrom?_succ, parent, inside] at passed
      | some answer =>
          cases answer with
          | false => simp [checkFrom?_succ, parent, inside] at passed
          | true => exact ⟨parent, rfl, checkFrom?_of_parent parent inside ▸ passed⟩
    · rw [checkFrom?_succ, if_pos parent] at passed
      cases passed
  · rintro ⟨parent, inside, behind⟩
    rw [checkFrom?_of_parent parent inside, behind]

/-! ## No answer changes with more rounds -/

section
variable {more : Nat} (same : ∀ {list id answer}, document.checkFrom? fuel list id = some answer →
  document.checkFrom? more list id = some answer)
include same

theorem checkInside?_of_some (answered : document.checkInside? fuel id = some answer) :
    document.checkInside? more id = some answer := by
  rw [checkInside?] at answered ⊢
  cases first : document.first? id with
  | none => rwa [first] at answered
  | some first =>
      simp only [first] at answered ⊢
      split at answered
      · next heads => rw [if_pos heads, same answered]
      · next heads => rw [if_neg heads, answered]

theorem checkBehind?_of_some (answered : document.checkBehind? fuel list id = some answer) :
    document.checkBehind? more list id = some answer := by
  rw [checkBehind?] at answered ⊢
  cases next : document.next? id with
  | none => rwa [next] at answered
  | some next =>
      simp only [next] at answered ⊢
      split at answered
      · next wrong => rw [if_pos wrong, answered]
      · next right => rw [if_neg right, same answered]

end

theorem checkFrom?_succ_of_some (answered : document.checkFrom? fuel list id = some answer) :
    document.checkFrom? (fuel + 1) list id = some answer := by
  induction fuel generalizing list id answer with
  | zero => cases answered
  | succ fuel ih =>
      rw [checkFrom?_succ] at answered ⊢
      split at answered
      · next astray => rw [if_pos astray, answered]
      · next parent =>
          rw [if_neg parent]
          cases within : document.checkInside? fuel id with
          | none =>
              rw [within] at answered
              cases answered
          | some passed =>
              rw [within] at answered
              rw [checkInside?_of_some ih within]
              cases passed with
              | true => exact checkBehind?_of_some ih answered
              | false => exact answered

theorem checkFrom?_of_le {more : Nat} (le : fuel ≤ more)
    (answered : document.checkFrom? fuel list id = some answer) :
    document.checkFrom? more list id = some answer := by
  induction le with
  | refl => exact answered
  | step _ ih => exact checkFrom?_succ_of_some ih

/-- The check of all links, in `fuel` rounds at most on any way down and along. -/
def checkWithin? (document : Document) (fuel : Nat) : Option Bool :=
  match document.first? root with
  | some first =>
      if document.Heads root first then document.checkFrom? fuel root first else some false
  | none => some false

theorem check?_eq : document.check? = document.checkWithin? document.chainLimit := rfl

theorem isConsistent_of_check? (answered : document.check? = some answer) :
    document.isConsistent = answer := by
  rw [isConsistent, answered]
  cases answer <;> rfl

/-! ## The way of the check -/

/-- A link that the check follows, to a node that turns out to be in the right list. -/
inductive Follows (document : Document) (id other : NodeId) : Prop
  | down (first : document.first? id = some other) (heads : document.Heads id other)
  | along {list : NodeId} (next : document.next? id = some other)
      (prev : document.prev? other = some id) (notHead : document.isHead other = false)
      (parent : document.parent? id = some list) (parent' : document.parent? other = some list)

namespace Follows

/-- The links that are followed lead back, each to one node. -/
theorem single : Relator.LeftUnique document.Follows := by
  rintro a b c (⟨_, heads⟩ | ⟨_, prev, _⟩) (⟨_, heads'⟩ | ⟨_, prev', _⟩)
  · exact Option.some.inj (heads.2.2.symm.trans heads'.2.2)
  · cases heads.2.1.symm.trans prev'
  · cases heads'.2.1.symm.trans prev
  · exact Option.some.inj (prev.symm.trans prev')

theorem exists_parent (follows : document.Follows id other) :
    ∃ list, document.parent? other = some list := by
  cases follows with
  | down _ heads => exact ⟨_, heads.2.2⟩
  | along _ _ _ _ parent' => exact ⟨_, parent'⟩

/-- A node that is in no list is not come to. -/
theorem free (unheld : document.parent? other = none) (id : NodeId) :
    ¬ document.Follows id other := by
  intro follows
  obtain ⟨list, parent⟩ := follows.exists_parent
  cases unheld.symm.trans parent

end Follows

variable {before : NodeId} (rooted : document.isList root = true)
  (unheld : document.parent? root = none)

include rooted unheld

/-- On no way are there as many links as slots. -/
theorem follows_lt (walk : Walk document.Follows root count id) : count < document.slots.size := by
  refine walk.lt_of_bounded Follows.single (Follows.free unheld) fun count id walk => ?_
  cases walk with
  | here => exact lt_size_of_live (live_of_isList rooted)
  | next _ follows =>
      obtain ⟨list, parent⟩ := follows.exists_parent
      exact lt_size_of_live (live_of_parent? parent)

/-- With as many rounds as there are slots, less those that were needed to come to a node, the
check has an answer. -/
theorem exists_checkFrom? (walk : Walk document.Follows root count before)
    (enough : document.slots.size ≤ count + fuel)
    (follows : document.parent? id = some list → document.Follows before id) :
    ∃ answer, document.checkFrom? fuel list id = some answer := by
  -- The walk that led to a node is shorter than the slots are many, so that the fuel is not spent
  -- when the check comes there.
  induction fuel generalizing count before list id with
  | zero => exact absurd (follows_lt rooted unheld walk) (Nat.not_lt.2 enough)
  | succ fuel ih =>
      by_cases parent : document.parent? id = some list
      · have walk := walk.next (follows parent)
        have enough : document.slots.size ≤ count + 1 + fuel := by omega
        have inside : ∃ answer, document.checkInside? fuel id = some answer := by
          rw [checkInside?]
          cases first : document.first? id with
          | none => exact ⟨true, rfl⟩
          | some first' =>
              simp only
              split
              · next heads => exact ih walk enough fun _ => .down first heads
              · exact ⟨false, rfl⟩
        have behind : ∃ answer, document.checkBehind? fuel list id = some answer := by
          rw [checkBehind?]
          cases next : document.next? id with
          | none => exact ⟨_, rfl⟩
          | some next' =>
              simp only
              split
              · exact ⟨false, rfl⟩
              · next right =>
                  obtain ⟨prev, notHead⟩ := not_or.1 right
                  exact ih walk enough fun parent' =>
                    .along next (not_not.1 prev) (Bool.eq_false_iff.2 notHead) parent parent'
        rw [checkFrom?_succ, if_neg (not_not.2 parent)]
        obtain ⟨passed, within⟩ := inside
        rw [within]
        cases passed with
        | true => exact behind
        | false => exact ⟨false, rfl⟩
      · exact ⟨false, by rw [checkFrom?_succ, if_pos parent]⟩

/-- The check ends: with as many rounds as there are slots, or more, it has an answer, which is
always the same. -/
theorem exists_checkWithin? :
    ∃ answer, ∀ fuel, document.chainLimit ≤ fuel → document.checkWithin? fuel = some answer := by
  cases first : document.first? root with
  | none => exact ⟨false, fun fuel _ => by rw [checkWithin?, first]⟩
  | some first' =>
      by_cases heads : document.Heads root first'
      · have enough : document.slots.size ≤ 0 + document.chainLimit := by rw [Nat.zero_add]; rfl
        obtain ⟨answer, answered⟩ :
            ∃ answer, document.checkFrom? document.chainLimit root first' = some answer :=
          exists_checkFrom? rooted unheld .here enough fun _ => .down first heads
        refine ⟨answer, fun fuel le => ?_⟩
        simp only [checkWithin?, first, if_pos heads, checkFrom?_of_le le answered]
      · exact ⟨false, fun fuel _ => by simp only [checkWithin?, first, if_neg heads]⟩

omit rooted unheld

/-! ## The strict check -/

namespace Strict

/-- Whether a node is the head of a list, and has the list as its list. -/
def heads (document : Document) (list first : NodeId) : Option Bool := do
  let isHead ← document.about first (document.isHead first)
  let prev ← document.about first (document.prev? first)
  let parent ← document.about first (document.parent? first)
  return isHead = true ∧ prev = none ∧ parent = some list

/-- Check all that is in a node, with `check` for what is in a list. -/
def checkInside (document : Document) (check : NodeId → NodeId → Option Bool) (id : NodeId) :
    Option Bool := do
  match ← document.about id (document.first? id) with
  | some first => if ← heads document id first then check id first else return false
  | none => return true

/-- Check all that comes behind a node in its list, with `check` for what is in a list from some
node on. -/
def checkBehind (document : Document) (check : NodeId → NodeId → Option Bool)
    (list id : NodeId) : Option Bool := do
  match ← document.about id (document.next? id) with
  | some next =>
      let prev ← document.about next (document.prev? next)
      let isHead ← document.about next (document.isHead next)
      if prev ≠ some id ∨ isHead then return false else check list next
  | none =>
      let last ← document.about list (document.last? list)
      return last = some id

/-- Check the chain of `list` from `id` on, and all lists in it, in `fuel` rounds at most on any
way down and along. -/
def checkFrom (document : Document) : (fuel : Nat) → (list id : NodeId) → Option Bool
  | 0, _, _ => none
  | fuel + 1, list, id => do
      let parent ← document.about id (document.parent? id)
      if parent ≠ some list then return false
      let inside ← checkInside document (checkFrom document fuel) id
      if inside then checkBehind document (checkFrom document fuel) list id else return false

/-- Check all links, from the root on. -/
def check (document : Document) (fuel : Nat) : Option Bool := do
  match ← document.about root (document.first? root) with
  | some first =>
      if ← heads document root first then checkFrom document fuel root first else return false
  | none => return false

theorem heads_eq (live : document.Live first) :
    heads document list first = some (decide (document.Heads list first)) := by
  simp only [heads, about_of_live live, Option.bind_eq_bind, Option.bind_some]
  rfl

variable (wired : document.Wired)

section
variable {check : NodeId → NodeId → Option Bool} (live : document.Live id)
  (same : ∀ {list id}, document.Live list → document.Live id →
    check list id = document.checkFrom? fuel list id)

include wired live same

theorem checkInside_eq : checkInside document check id = document.checkInside? fuel id := by
  rw [checkInside, checkInside?, about_of_live live, Option.bind_eq_bind, Option.bind_some]
  cases first : document.first? id with
  | none => rfl
  | some head =>
      have liveFirst := wired.live_of_first? first
      show (heads document id head).bind _ = _
      rw [heads_eq liveFirst, same live liveFirst]
      simp only [Option.bind_some, decide_eq_true_eq]
      rfl

theorem checkBehind_eq (holds : document.Live list) :
    checkBehind document check list id = document.checkBehind? fuel list id := by
  rw [checkBehind, checkBehind?, about_of_live live, Option.bind_eq_bind, Option.bind_some]
  cases next : document.next? id with
  | none => rw [about_of_live holds, Option.bind_some]; rfl
  | some next =>
      have liveNext := wired.live_of_next? next
      simp only [about_of_live liveNext, Option.bind_some, same holds liveNext]
      rfl

end

include wired

theorem checkFrom_eq (holds : document.Live list) (live : document.Live id) :
    checkFrom document fuel list id = document.checkFrom? fuel list id := by
  induction fuel generalizing list id with
  | zero => rfl
  | succ fuel ih =>
      rw [checkFrom?_succ, checkFrom, about_of_live live, Option.bind_eq_bind, Option.bind_some,
        checkInside_eq wired live ih, checkBehind_eq wired live ih holds]
      split
      · rfl
      · cases document.checkInside? fuel id with
        | none => rfl
        | some inside => cases inside <;> rfl

theorem check_eq (live : document.Live root) :
    check document fuel = document.checkWithin? fuel := by
  rw [check, checkWithin?, about_of_live live, Option.bind_eq_bind, Option.bind_some]
  cases first : document.first? root with
  | none => rfl
  | some head =>
      have liveFirst := wired.live_of_first? first
      show (heads document root head).bind _ = _
      rw [heads_eq liveFirst, checkFrom_eq wired live liveFirst]
      simp only [Option.bind_some, decide_eq_true_eq]
      rfl

end Strict

end Document

end LiveStack
