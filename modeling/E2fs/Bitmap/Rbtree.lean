import Mathlib.Tactic

/-! The red-black trees of lib/ext2fs/rbtree.c, with the parent pointers of the
source replaced by the path from a node to the root. Colours and rotations are
kept, because the bitmap code observes the shape of the tree through the last
node its searches visit. Nothing here depends on what the nodes hold. -/
namespace E2fs.Rbtree
open List

inductive Color where
  | red
  | black
  deriving DecidableEq, Repr

inductive RbTree (α : Type) where
  | nil
  | node (color : Color) (left : RbTree α) (value : α) (right : RbTree α)
  deriving DecidableEq, Repr

/- One step up. In `left c x r` we are the left child of the node `x`, whose
colour is `c` and whose right subtree is `r`. -/
inductive Frame (α : Type) where
  | left (color : Color) (value : α) (right : RbTree α)
  | right (color : Color) (left : RbTree α) (value : α)

variable {α : Type}

def RbTree.inorder : RbTree α → List α
  | .nil => []
  | .node _ l x r => l.inorder ++ x :: r.inorder

def RbTree.isRed : RbTree α → Bool
  | .node .red _ _ _ => true
  | _ => false

def RbTree.setColor (c : Color) : RbTree α → RbTree α
  | .nil => .nil
  | .node _ l x r => .node c l x r

def RbTree.map (f : α → α) : RbTree α → RbTree α
  | .nil => .nil
  | .node c l x r => .node c (l.map f) (f x) (r.map f)

def Frame.color : Frame α → Color
  | .left c _ _ => c
  | .right c _ _ => c

def Frame.value : Frame α → α
  | .left _ x _ => x
  | .right _ _ x => x

def Frame.fill (t : RbTree α) : Frame α → RbTree α
  | .left c x r => .node c t x r
  | .right c l x => .node c l x t

/- The whole tree around a subtree: follow `rb_parent` to the root. -/
def plug : RbTree α → List (Frame α) → RbTree α
  | t, [] => t
  | t, f :: up => plug (f.fill t) up

def lefts : List (Frame α) → List α
  | [] => []
  | .left _ _ _ :: up => lefts up
  | .right _ l x :: up => lefts up ++ (l.inorder ++ [x])

def rights : List (Frame α) → List α
  | [] => []
  | .left _ x r :: up => x :: r.inorder ++ rights up
  | .right _ _ _ :: up => rights up

@[simp] theorem inorder_nil : (RbTree.nil : RbTree α).inorder = [] := rfl

@[simp] theorem inorder_node (c : Color) (l : RbTree α) (x : α) (r : RbTree α) :
    (RbTree.node c l x r).inorder = l.inorder ++ x :: r.inorder := rfl

@[simp]
theorem inorder_setColor (c : Color) (t : RbTree α) : (t.setColor c).inorder = t.inorder := by
  cases t <;> rfl

theorem inorder_map (f : α → α) (t : RbTree α) : (t.map f).inorder = t.inorder.map f := by
  induction t with
  | nil => rfl
  | node c l x r hl hr => simp [RbTree.map, hl, hr]

theorem inorder_plug (t : RbTree α) (up : List (Frame α)) :
    (plug t up).inorder = lefts up ++ t.inorder ++ rights up := by
  induction up generalizing t with
  | nil => simp [plug, lefts, rights]
  | cons f up ih =>
    cases f <;> simp [plug, Frame.fill, lefts, rights, ih]

def rotateLeft : RbTree α → RbTree α
  | .node c a x (.node d b y e) => .node d (.node c a x b) y e
  | t => t

def rotateRight : RbTree α → RbTree α
  | .node c (.node d a x b) y e => .node d a x (.node c b y e)
  | t => t

@[simp] theorem inorder_rotateLeft (t : RbTree α) : (rotateLeft t).inorder = t.inorder := by
  unfold rotateLeft
  split <;> simp

@[simp] theorem inorder_rotateRight (t : RbTree α) : (rotateRight t).inorder = t.inorder := by
  unfold rotateRight
  split <;> simp

/- The parent of `node` after an inner grandchild has been rotated outwards. -/
def alignLeft (node : RbTree α) : Frame α → RbTree α
  | .left c x r => .node c node x r
  | .right c l x => rotateLeft (.node c l x node)

def alignRight (node : RbTree α) : Frame α → RbTree α
  | .left c x r => rotateRight (.node c node x r)
  | .right c l x => .node c l x node

section

variable (node : RbTree α)

@[simp]
theorem inorder_alignLeft (p : Frame α) : (alignLeft node p).inorder = (p.fill node).inorder := by
  cases p <;> simp [alignLeft, Frame.fill]

@[simp]
theorem inorder_alignRight (p : Frame α) : (alignRight node p).inorder = (p.fill node).inorder := by
  cases p <;> simp [alignRight, Frame.fill]

/- `ext2fs_rb_insert_color`. With a black uncle the two rotations leave the new
parent black, so the loop of the source ends there. -/
def rbInsertColor (node : RbTree α) : List (Frame α) → RbTree α
  | [] => node.setColor .black
  | [p] => (p.fill node).setColor .black
  | p :: g :: up =>
    if p.color = .black then (plug node (p :: g :: up)).setColor .black
    else match g with
      | .left _ y uncle =>
        if uncle.isRed then
          rbInsertColor (.node .red ((p.fill node).setColor .black) y (uncle.setColor .black)) up
        else (plug (rotateRight (.node .red ((alignLeft node p).setColor .black) y uncle))
          up).setColor .black
      | .right _ uncle y =>
        if uncle.isRed then
          rbInsertColor (.node .red (uncle.setColor .black) y ((p.fill node).setColor .black)) up
        else (plug (rotateLeft (.node .red uncle y ((alignRight node p).setColor .black)))
          up).setColor .black

theorem inorder_rbInsertColor (up : List (Frame α)) :
    (rbInsertColor node up).inorder = (plug node up).inorder := by
  fun_induction rbInsertColor node up <;>
    simp_all [plug, inorder_plug, Frame.fill]

/- The part of `__rb_erase_color` for a black sibling on the right: either the
sibling turns red and the loop goes on one level up (`false`), or two rotations
finish the repair (`true`). -/
def eraseLeft (node : RbTree α) (c : Color) (x : α) : RbTree α → RbTree α × Bool
  | .nil => (.node c node x .nil, true)
  | .node _ l y r =>
    if !l.isRed && !r.isRed then (.node c node x (.node .red l y r), false)
    else
      let other := if r.isRed then .node .black l y r
        else rotateRight (.node .red (l.setColor .black) y r)
      (rotateLeft (.node .black node x (repaint c other)), true)
where
  /- The sibling takes the parent's colour and its outer child turns black. -/
  repaint (c : Color) : RbTree α → RbTree α
    | .nil => .nil
    | .node _ l y r => .node c l y (r.setColor .black)

def eraseRight (node : RbTree α) (c : Color) (x : α) : RbTree α → RbTree α × Bool
  | .nil => (.node c .nil x node, true)
  | .node _ l y r =>
    if !l.isRed && !r.isRed then (.node c (.node .red l y r) x node, false)
    else
      let other := if l.isRed then .node .black l y r
        else rotateLeft (.node .red l y (r.setColor .black))
      (rotateRight (.node .black (repaint c other) x node), true)
where
  repaint (c : Color) : RbTree α → RbTree α
    | .nil => .nil
    | .node _ l y r => .node c (l.setColor .black) y r

theorem inorder_eraseLeft (c : Color) (x : α) (other : RbTree α) :
    (eraseLeft node c x other).1.inorder = node.inorder ++ x :: other.inorder := by
  have paint : ∀ t : RbTree α, (eraseLeft.repaint c t).inorder = t.inorder := by
    intro t
    cases t <;> simp [eraseLeft.repaint]
  unfold eraseLeft
  split
  · simp
  · split
    · simp
    · simp only [inorder_rotateLeft, inorder_node, paint]
      split <;> simp

theorem inorder_eraseRight (c : Color) (x : α) (other : RbTree α) :
    (eraseRight node c x other).1.inorder = other.inorder ++ x :: node.inorder := by
  have paint : ∀ t : RbTree α, (eraseRight.repaint c t).inorder = t.inorder := by
    intro t
    cases t <;> simp [eraseRight.repaint]
  unfold eraseRight
  split
  · simp
  · split
    · simp
    · simp only [inorder_rotateRight, inorder_node, paint]
      split <;> simp

/- `__rb_erase_color`. A red sibling is first rotated above the parent, which
turns red; when the sibling's sons are then black, the red parent ends the loop. -/
def rbEraseColor (node : RbTree α) : List (Frame α) → RbTree α
  | [] => node.setColor .black
  | p :: up =>
    if node.isRed then plug (node.setColor .black) (p :: up)
    else match p with
      | .left _ x (.node .red l y r) =>
        let fixed := eraseLeft node .red x l
        if fixed.2 then (plug (.node .black fixed.1 y r) up).setColor .black
        else plug (.node .black (fixed.1.setColor .black) y r) up
      | .left c x other =>
        let fixed := eraseLeft node c x other
        if fixed.2 then (plug fixed.1 up).setColor .black else rbEraseColor fixed.1 up
      | .right _ (.node .red l y r) x =>
        let fixed := eraseRight node .red x r
        if fixed.2 then (plug (.node .black l y fixed.1) up).setColor .black
        else plug (.node .black l y (fixed.1.setColor .black)) up
      | .right c other x =>
        let fixed := eraseRight node c x other
        if fixed.2 then (plug fixed.1 up).setColor .black else rbEraseColor fixed.1 up

theorem inorder_rbEraseColor (up : List (Frame α)) :
    (rbEraseColor node up).inorder = (plug node up).inorder := by
  fun_induction rbEraseColor node up with
  | case1 => simp [plug]
  | case2 node p up red => cases p <;> simp [inorder_plug]
  | case3 | case4 | case5 | case7 | case8 | case9 =>
    simp +zetaDelta [plug, inorder_plug, Frame.fill, inorder_eraseLeft, inorder_eraseRight]
  | case6 node up c x other black plain fixed more ih =>
    simp +zetaDelta [plug, inorder_plug, Frame.fill, inorder_eraseLeft, ih]
  | case10 node up c other x black plain fixed more ih =>
    simp +zetaDelta [plug, inorder_plug, Frame.fill, inorder_eraseRight, ih]

end

/- The leftmost node of a subtree together with the frames leading to it: its
colour, its value and its right subtree. -/
def leftmost : RbTree α → List (Frame α) → Option (Color × α × RbTree α × List (Frame α))
  | .nil, _ => none
  | .node c .nil x r, up => some (c, x, r, up)
  | .node c l x r, up => leftmost l (.left c x r :: up)

theorem leftmost_spec {t : RbTree α} {up : List (Frame α)} {c : Color} {x : α} {r : RbTree α}
    {down : List (Frame α)} (found : leftmost t up = some (c, x, r, down)) :
    lefts down = lefts up ∧ x :: (r.inorder ++ rights down) = t.inorder ++ rights up := by
  fun_induction leftmost t up with
  | case1 => simp at found
  | case2 => simp_all
  | case3 up c l x r nonempty ih =>
    simp_all [lefts, rights]

theorem leftmost_some {t : RbTree α} (up : List (Frame α)) (nonempty : t ≠ .nil) :
    ∃ c x r down, leftmost t up = some (c, x, r, down) := by
  fun_induction leftmost t up with
  | case1 => contradiction
  | case2 c x r up => exact ⟨c, x, r, up, rfl⟩
  | case3 up c l x r hl ih => exact ih hl

/- `ext2fs_rb_erase` of the root of the subtree `t`. With two sons the in-order
successor takes the node's place and colour. -/
def rbErase : RbTree α → List (Frame α) → RbTree α
  | .nil, up => plug .nil up
  | .node c .nil _ r, up => if c = .black then rbEraseColor r up else plug r up
  | .node c l _ .nil, up => if c = .black then rbEraseColor l up else plug l up
  | .node c l _ r, up =>
    match leftmost r [] with
    | none => plug l up
    | some (d, y, child, down) =>
      let path := down ++ .right c l y :: up
      if d = .black then rbEraseColor child path else plug child path

theorem lefts_append (down up : List (Frame α)) : lefts (down ++ up) = lefts up ++ lefts down := by
  induction down with
  | nil => simp [lefts]
  | cons f down ih => cases f <;> simp [lefts, ih]

theorem rights_append (down up : List (Frame α)) :
    rights (down ++ up) = rights down ++ rights up := by
  induction down with
  | nil => simp [rights]
  | cons f down ih => cases f <;> simp [rights, ih]

theorem inorder_rbErase (c : Color) (l : RbTree α) (x : α) (r : RbTree α) (up : List (Frame α)) :
    (rbErase (.node c l x r) up).inorder = lefts up ++ (l.inorder ++ r.inorder) ++ rights up := by
  unfold rbErase
  split
  · simp_all
  · rename_i h
    obtain ⟨-, rfl, -, rfl⟩ := RbTree.node.inj h
    split <;> simp [inorder_rbEraseColor, inorder_plug]
  · rename_i h
    obtain ⟨-, rfl, -, rfl⟩ := RbTree.node.inj h
    split <;> simp [inorder_rbEraseColor, inorder_plug]
  · rename_i c' l' x' r' _ nonempty h
    obtain ⟨rfl, rfl, rfl, rfl⟩ := RbTree.node.inj h
    obtain ⟨d, y, child, down, found⟩ := leftmost_some [] nonempty
    obtain ⟨hl, hr⟩ := leftmost_spec found
    simp only [lefts, rights, append_nil] at hl hr
    simp only [found]
    split <;> simp [inorder_rbEraseColor, inorder_plug, lefts_append, rights_append, lefts, rights,
      hl, ← hr]

/- `ext2fs_rb_next` and `ext2fs_rb_prev` of the root of a subtree: down into the
near son when there is one, otherwise up to the first ancestor on the other side. -/
def climbRight : List (Frame α) → Option α
  | [] => none
  | .left _ x _ :: _ => some x
  | .right _ _ _ :: up => climbRight up

def climbLeft : List (Frame α) → Option α
  | [] => none
  | .left _ _ _ :: up => climbLeft up
  | .right _ _ x :: _ => some x

def rbFirst : RbTree α → Option α
  | .nil => none
  | .node _ .nil x _ => some x
  | .node _ l _ _ => rbFirst l

def rbLast : RbTree α → Option α
  | .nil => none
  | .node _ _ x .nil => some x
  | .node _ _ _ r => rbLast r

def rbNext : RbTree α → List (Frame α) → Option α
  | .nil, _ => none
  | .node _ _ _ .nil, up => climbRight up
  | .node _ _ _ r, _ => rbFirst r

def rbPrev : RbTree α → List (Frame α) → Option α
  | .nil, _ => none
  | .node _ .nil _ _, up => climbLeft up
  | .node _ l _ _, _ => rbLast l

theorem climbRight_spec (up : List (Frame α)) : climbRight up = (rights up).head? := by
  induction up with
  | nil => rfl
  | cons f up ih => cases f <;> simp [climbRight, rights, ih]

theorem climbLeft_spec (up : List (Frame α)) : climbLeft up = (lefts up).getLast? := by
  induction up with
  | nil => rfl
  | cons f up ih => cases f <;> simp [climbLeft, lefts, ih]

theorem inorder_ne_nil {t : RbTree α} (nonempty : t ≠ .nil) : t.inorder ≠ [] := by
  cases t with
  | nil => contradiction
  | node => simp

theorem rbFirst_spec (t : RbTree α) : rbFirst t = t.inorder.head? := by
  fun_induction rbFirst t with
  | case1 => rfl
  | case2 => simp
  | case3 c l x r nonempty ih =>
    have h := inorder_ne_nil nonempty
    simp [ih, head?_append, head?_eq_some_head h]

theorem rbLast_spec (t : RbTree α) : rbLast t = t.inorder.getLast? := by
  fun_induction rbLast t with
  | case1 => rfl
  | case2 => simp
  | case3 c l x r nonempty ih =>
    have h := inorder_ne_nil nonempty
    simp [ih, getLast?_cons, getLast?_eq_some_getLast h]

theorem rbNext_spec (c : Color) (l : RbTree α) (x : α) (r : RbTree α) (up : List (Frame α)) :
    rbNext (.node c l x r) up = (r.inorder ++ rights up).head? := by
  rcases r with _ | ⟨d, a, y, b⟩
  · simp [rbNext, climbRight_spec]
  have h := inorder_ne_nil (t := .node d a y b) (by simp)
  rw [rbNext, rbFirst_spec, head?_append, head?_eq_some_head h]
  · rfl
  · simp

theorem rbPrev_spec (c : Color) (l : RbTree α) (x : α) (r : RbTree α) (up : List (Frame α)) :
    rbPrev (.node c l x r) up = (lefts up ++ l.inorder).getLast? := by
  rcases l with _ | ⟨d, a, y, b⟩
  · simp [rbPrev, climbLeft_spec]
  have h := inorder_ne_nil (t := .node d a y b) (by simp)
  rw [rbPrev, rbLast_spec, getLast?_append, getLast?_eq_some_getLast h]
  · rfl
  · simp

/- Following a pointer: the position of the first node that `p` accepts. -/
def locate (p : α → Bool) : RbTree α → List (Frame α) → Option (RbTree α × List (Frame α))
  | .nil, _ => none
  | .node c l x r, up =>
    if p x then some (.node c l x r, up)
    else match locate p l (.left c x r :: up) with
      | some z => some z
      | none => locate p r (.right c l x :: up)

theorem locate_some (p : α → Bool) (t : RbTree α) (up : List (Frame α))
    (z : RbTree α × List (Frame α))
    (found : locate p t up = some z) :
    plug z.1 z.2 = plug t up ∧ ∃ c l x r, z.1 = .node c l x r ∧ p x = true := by
  fun_induction locate p t up with
  | case1 => simp at found
  | case2 c l x r up accept =>
    cases found
    exact ⟨rfl, c, l, x, r, rfl, accept⟩
  | case3 c l x r up accept z' hz ih =>
    cases found
    exact ih hz
  | case4 c l x r up accept none ihl ihr => exact ihr found

theorem locate_none (p : α → Bool) (t : RbTree α) (up : List (Frame α))
    (missing : locate p t up = none) : ∀ x ∈ t.inorder, p x = false := by
  fun_induction locate p t up with
  | case1 => simp
  | case2 => simp at missing
  | case3 => simp at missing
  | case4 c l x r up accept none ihl ihr =>
    intro y hy
    simp only [inorder_node, mem_append, mem_cons] at hy
    rcases hy with hy | rfl | hy
    · exact ihl none y hy
    · simpa using accept
    · exact ihr missing y hy

/- The descent `while (*n) ...` shared by every search: `cmp x` says on which
side of the node `x` the search goes on. -/
def descend (cmp : α → Ordering) : RbTree α → List (Frame α) → RbTree α × List (Frame α)
  | .nil, up => (.nil, up)
  | .node c l x r, up =>
    match cmp x with
    | .lt => descend cmp l (.left c x r :: up)
    | .gt => descend cmp r (.right c l x :: up)
    | .eq => (.node c l x r, up)

/- The nodes of a search tree, as one comparison sees them: first those to the
left of the searched place, then those at it, then those to its right. -/
def CutOrdered (cmp : α → Ordering) (xs : List α) : Prop :=
  xs.Pairwise fun a b => (cmp a = .lt → cmp b = .lt) ∧ (cmp b = .gt → cmp a = .gt)

section

variable (cmp : α → Ordering) (t : RbTree α) (up : List (Frame α))
include cmp t up

theorem descend_plug : plug (descend cmp t up).1 (descend cmp t up).2 = plug t up := by
  fun_induction descend cmp t up <;> simp_all [plug, Frame.fill]

theorem descend_sides (mono : CutOrdered cmp t.inorder)
    (hl : ∀ a ∈ lefts up, cmp a = .gt) (hr : ∀ b ∈ rights up, cmp b = .lt) :
    (∀ a ∈ lefts (descend cmp t up).2, cmp a = .gt) ∧
    (∀ b ∈ rights (descend cmp t up).2, cmp b = .lt) := by
  fun_induction descend cmp t up with
  | case1 => exact ⟨hl, hr⟩
  | case2 c l x r up less ih =>
    obtain ⟨left, right, -⟩ := pairwise_append.mp mono
    apply ih left hl
    intro b hb
    simp only [rights, cons_append, mem_cons, mem_append] at hb
    rcases hb with rfl | hb | hb
    · exact less
    · exact (rel_of_pairwise_cons right hb).1 less
    · exact hr b hb
  | case3 c l x r up greater ih =>
    obtain ⟨-, right, cross⟩ := pairwise_append.mp mono
    apply ih right.of_cons _ hr
    intro a ha
    simp only [lefts, mem_append, mem_singleton] at ha
    rcases ha with ha | ha | rfl
    · exact hl a ha
    · exact (cross a ha x (by simp)).2 greater
    · exact greater
  | case4 => exact ⟨hl, hr⟩

theorem descend_hit (c : Color) (l : RbTree α) (x : α) (r : RbTree α)
    (hit : (descend cmp t up).1 = .node c l x r) : cmp x = .eq := by
  fun_induction descend cmp t up with
  | case1 => simp at hit
  | case2 c l x r up less ih => exact ih hit
  | case3 c l x r up greater ih => exact ih hit
  | case4 c' l' x' r' up equal =>
    obtain ⟨-, -, rfl, -⟩ := RbTree.node.inj hit
    exact equal

end

end E2fs.Rbtree
