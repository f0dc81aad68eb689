/-
# The radix tree of nginx

`ngx_radix_tree.c` for keys of 32 bits. A node stands for the bits on the way
to it, and has a value or `NGX_RADIX_NO_VALUE`. The loops go down one bit of
the key at a time, the highest one first, as long as the bit of the mask is
set: `path`.

A tree is the table of its values (`get`): inserting and deleting change one
entry, and a lookup gives the value at the longest path that the key goes.
Deleting the root of a tree without any other node follows a null pointer
(`Outcome.crash`).

A node that is allocated is never missing here; the list of free nodes and
the pool are not modelled.

Key definitions: `Radix`, `insert`, `delete`, `find`, `create`, `get`.
Key theorems: `get_insert`, `leaves_delete`, `find_eq_longest`, `create_spec`, `path_maskOf`.
-/
import OpsScripts.Prefixes

namespace OpsScripts
namespace Nginx

open Prefixes

/-- A node, or a null pointer. -/
inductive Radix (α : Type)
  | empty
  | node (value : Option α) (left right : Radix α)

namespace Radix

variable {α : Type}

/-- The bits of a key where the mask is set: `while (bit & mask)`. -/
def path (key mask : ℕ) : List Bool :=
  (((bits 32 key).zip (bits 32 mask)).takeWhile fun b => b.2).map Prod.fst

/-- The child on the side of a bit. -/
def child (b : Bool) (left right : Radix α) : Radix α := if b then right else left

/-- A node with another child on the side of a bit. -/
def graft (v : Option α) (left right : Radix α) (b : Bool) (c : Radix α) : Radix α :=
  if b then .node v left c else .node v c right

/-- `ngx_radix32tree_insert` from a node on; nodes that are missing are made.
There is no result if the node has a value already (`NGX_BUSY`). -/
def insert : List Bool → Option α → Radix α → Option (Radix α)
  | [], v, .empty => some (.node v .empty .empty)
  | [], v, .node none l r => some (.node v l r)
  | [], _, .node (some _) _ _ => none
  | b :: p, v, .empty => (insert p v .empty).map fun c => graft none .empty .empty b c
  | b :: p, v, .node w l r => (insert p v (child b l r)).map fun c => graft w l r b c

/-- `ngx_radix32tree_find`. Below the last bit of the key it goes left. -/
def find : Radix α → List Bool → Option α → Option α
  | .empty, _, value => value
  | .node v l _, [], value => find l [] (v.or value)
  | .node v l r, b :: k, value => if b then find r k (v.or value) else find l k (v.or value)

/-- What `ngx_radix32tree_delete` leaves of a subtree. -/
inductive Deleted (α : Type)
  | error
  | gone
  | kept (t : Radix α)

def isEmpty : Radix α → Bool
  | .empty => true
  | .node .. => false

/-- A node of which one child has been dealt with: one that is left without
children and without a value goes too. -/
def shrink (v : Option α) (left right : Radix α) (b : Bool) : Deleted α → Deleted α
  | .error => .error
  | .kept c => .kept (graft v left right b c)
  | .gone => if v.isNone && (child (!b) left right).isEmpty then .gone else .kept (graft v left right b .empty)

/-- `ngx_radix32tree_delete` from a node on. -/
def prune : List Bool → Radix α → Deleted α
  | _, .empty => .error
  | [], .node v l r =>
    if l.isEmpty && r.isEmpty then .gone else if v.isSome then .kept (.node none l r) else .error
  | b :: p, .node v l r => shrink v l r b (if b then prune p r else prune p l)

/-- What becomes of a structure: it is changed, refused, or lost with the process. -/
inductive Outcome (β : Type)
  | ok (b : β)
  | error
  | crash

/-- A root without children. -/
def root : Radix α := .node none .empty .empty

/-- `ngx_radix32tree_delete`. The root stays, unless it is the node itself:
then its parent is asked for its children. -/
def delete (p : List Bool) (t : Radix α) : Outcome (Radix α) :=
  match prune p t with
  | .error => .error
  | .kept t => .ok t
  | .gone => if p = [] then .crash else .ok root

/-- The mask of a network of `s` bits. -/
def maskOf (s : ℕ) : ℕ := 2 ^ 32 - 2 ^ (32 - s)

/-- `ngx_radix_tree_create`: all nodes of up to `n` bits, without values. -/
def create (α : Type) (n : ℕ) : Radix α :=
  (List.range n).foldl (fun t d => (List.range (2 ^ (d + 1))).foldl (fun t j =>
    (insert (path (j * 2 ^ (31 - d)) (maskOf (d + 1))) none t).getD t) t) root

/-! ### The table of a tree -/

/-- The value of the node at the end of a path. -/
def get : Radix α → List Bool → Option α
  | .empty, _ => none
  | .node v _ _, [] => v
  | .node _ l r, b :: p => if b then get r p else get l p

/-- The paths are at most `n` bits long. -/
def Fits : ℕ → Radix α → Prop
  | _, .empty => True
  | 0, .node _ l r => l = .empty ∧ r = .empty
  | n + 1, .node _ l r => Fits n l ∧ Fits n r

theorem get_child (v : Option α) (l r : Radix α) (b : Bool) (p : List Bool) :
    get (.node v l r) (b :: p) = get (child b l r) p := by
  cases b <;> rfl

theorem get_graft_nil (v : Option α) (l r c : Radix α) (b : Bool) : get (graft v l r b c) [] = v := by
  cases b <;> rfl

theorem get_graft_cons (v : Option α) (l r c : Radix α) (b d : Bool) (p : List Bool) :
    get (graft v l r b c) (d :: p) = if d = b then get c p else get (.node v l r) (d :: p) := by
  cases b <;> cases d <;> rfl

theorem fits_child {n : ℕ} {v : Option α} {l r : Radix α} (h : Fits (n + 1) (.node v l r)) (b : Bool) :
    Fits n (child b l r) := by
  cases b
  · exact h.1
  · exact h.2

theorem fits_graft {n : ℕ} {v : Option α} {l r c : Radix α} (h : Fits (n + 1) (.node v l r)) (hc : Fits n c) (b : Bool) :
    Fits (n + 1) (graft v l r b c) := by
  cases b
  · exact ⟨hc, h.2⟩
  · exact ⟨h.1, hc⟩

theorem fits_empty (n : ℕ) : Fits n (.empty : Radix α) := by
  cases n <;> trivial

/-- **Inserting sets one entry**, which had no value before. -/
theorem get_insert {v : Option α} : ∀ {p : List Bool} {t t' : Radix α}, insert p v t = some t' →
    get t p = none ∧ ∀ q, get t' q = if q = p then v else get t q
  | [], .empty, t', h => by
    obtain rfl := Option.some.inj h
    refine ⟨rfl, fun q => ?_⟩
    rcases q with _ | ⟨d, q⟩
    · rfl
    · cases d <;> rfl
  | [], .node none l r, t', h => by
    obtain rfl := Option.some.inj h
    refine ⟨rfl, fun q => ?_⟩
    rcases q with _ | ⟨d, q⟩
    · rfl
    · rfl
  | b :: p, .empty, t', h => by
    obtain ⟨c, hc, rfl⟩ := Option.map_eq_some_iff.mp h
    refine ⟨rfl, fun q => ?_⟩
    rcases q with _ | ⟨d, q⟩
    · exact get_graft_nil ..
    · rw [get_graft_cons, (get_insert hc).2 q]
      by_cases hd : d = b
      · subst hd
        simp [get]
      · cases d <;> simp_all [get]
  | b :: p, .node w l r, t', h => by
    obtain ⟨c, hc, rfl⟩ := Option.map_eq_some_iff.mp h
    obtain ⟨hnone, hall⟩ := get_insert hc
    refine ⟨by rw [get_child, hnone], fun q => ?_⟩
    rcases q with _ | ⟨d, q⟩
    · exact get_graft_nil ..
    · rw [get_graft_cons, hall q]
      by_cases hd : d = b
      · subst hd
        simp [get_child]
      · simp [hd]

theorem insert_isSome {v : Option α} : ∀ (p : List Bool) (t : Radix α), get t p = none → ∃ t', insert p v t = some t'
  | [], .empty, _ => ⟨_, rfl⟩
  | [], .node none l r, _ => ⟨_, rfl⟩
  | b :: p, .empty, _ => by
    obtain ⟨c, hc⟩ := insert_isSome p .empty rfl
    exact ⟨_, by rw [insert, hc, Option.map_some]⟩
  | b :: p, .node w l r, h => by
    rw [get_child] at h
    obtain ⟨c, hc⟩ := insert_isSome p _ h
    exact ⟨_, by rw [insert, hc, Option.map_some]⟩

/-- `NGX_BUSY`: there is a value. -/
theorem get_of_insert_none {v : Option α} {p : List Bool} {t : Radix α} (h : insert p v t = none) : get t p ≠ none := by
  intro hnone
  obtain ⟨t', ht'⟩ := insert_isSome (v := v) p t hnone
  rw [ht'] at h
  cases h

theorem fits_insert {v : Option α} : ∀ {n : ℕ} {p : List Bool} {t t' : Radix α}, p.length ≤ n → Fits n t →
    insert p v t = some t' → Fits n t'
  | n, [], .empty, t', _, _, h => by
    obtain rfl := Option.some.inj h
    cases n
    · exact ⟨rfl, rfl⟩
    · exact ⟨fits_empty _, fits_empty _⟩
  | n, [], .node none l r, t', _, hfits, h => by
    obtain rfl := Option.some.inj h
    cases n <;> exact hfits
  | 0, b :: p, _, t', hlen, _, _ => absurd hlen (by simp)
  | n + 1, b :: p, .empty, t', hlen, _, h => by
    obtain ⟨c, hc, rfl⟩ := Option.map_eq_some_iff.mp h
    have hfits : Fits n c := fits_insert (Nat.le_of_succ_le_succ hlen) (fits_empty n) hc
    cases b
    · exact ⟨hfits, fits_empty n⟩
    · exact ⟨fits_empty n, hfits⟩
  | n + 1, b :: p, .node w l r, t', hlen, hfits, h => by
    obtain ⟨c, hc, rfl⟩ := Option.map_eq_some_iff.mp h
    exact fits_graft hfits (fits_insert (Nat.le_of_succ_le_succ hlen) (fits_child hfits b) hc) b

/-- **A lookup gives the value at the longest path.** -/
theorem find_eq_longest : ∀ {t : Radix α} {k : List Bool} (value : Option α), Fits k.length t →
    find t k value = (longest (get t) k).or value
  | .empty, k, value, _ => by
    have hnone : longest (get (.empty : Radix α)) k = none := longest_eq_none_iff.mpr fun _ _ => rfl
    rw [hnone, Option.none_or]
    cases k <;> rfl
  | .node v l r, [], value, h => by
    obtain ⟨rfl, rfl⟩ := h
    rfl
  | .node v l r, b :: k, value, h => by
    have hside : find (.node v l r) (b :: k) value = find (child b l r) k (v.or value) := by
      cases b <;> rfl
    have hget : (fun p => get (.node v l r) (b :: p)) = get (child b l r) := funext fun p => get_child v l r b p
    have ih : find (child b l r) k (v.or value) = (longest (get (child b l r)) k).or (v.or value) := by
      cases b
      · exact find_eq_longest _ h.1
      · exact find_eq_longest _ h.2
    rw [hside, ih, longest, hget, Option.or_assoc]
    rfl

/-! ### Deleting -/

/-- What a subtree may become when the value at `p` goes. -/
def Leaves (p : List Bool) (t : Radix α) : Deleted α → Prop
  | .error => get t p = none
  | .gone => ∀ q, q ≠ p → get t q = none
  | .kept t' => ∀ q, get t' q = if q = p then none else get t q

theorem get_of_isEmpty : ∀ {t : Radix α}, t.isEmpty = true → ∀ p, get t p = none
  | .empty, _, _ => rfl

theorem prune_cons (b : Bool) (p : List Bool) (v : Option α) (l r : Radix α) :
    prune (b :: p) (.node v l r) = shrink v l r b (prune p (child b l r)) := by
  cases b <;> rfl

/-- The entries of a node after a change below one child. -/
theorem get_graft_update {v : Option α} {l r c : Radix α} {b : Bool} {p : List Bool}
    (h : ∀ q, get c q = if q = p then none else get (child b l r) q) (q : List Bool) :
    get (graft v l r b c) q = if q = b :: p then none else get (.node v l r) q := by
  rcases q with _ | ⟨d, q⟩
  · exact get_graft_nil ..
  · rw [get_graft_cons]
    by_cases hd : d = b
    · subst hd
      simp [h, get_child]
    · simp [hd]

theorem leaves_shrink {v : Option α} {l r : Radix α} {b : Bool} {p : List Bool} {d : Deleted α}
    (h : Leaves p (child b l r) d) : Leaves (b :: p) (.node v l r) (shrink v l r b d) := by
  rcases d with _ | _ | c
  · show get _ _ = none
    rw [get_child]
    exact h
  · by_cases hbare : (v.isNone && (child (!b) l r).isEmpty) = true
    · rw [shrink, if_pos hbare]
      rw [Bool.and_eq_true, Option.isNone_iff_eq_none] at hbare
      intro q hq
      rcases q with _ | ⟨d, q⟩
      · exact hbare.1
      · rw [get_child]
        by_cases hd : d = b
        · subst hd
          apply h
          rintro rfl
          exact hq rfl
        · rw [Bool.eq_not_of_ne hd]
          exact get_of_isEmpty hbare.2 q
    · rw [shrink, if_neg hbare]
      apply get_graft_update
      intro q
      by_cases hq : q = p
      · rw [if_pos hq]
        rfl
      · rw [if_neg hq, h q hq]
        rfl
  · exact get_graft_update h

theorem leaves_prune : ∀ (p : List Bool) (t : Radix α), Leaves p t (prune p t)
  | [], .empty => rfl
  | _ :: _, .empty => rfl
  | [], .node v l r => by
    by_cases hleaf : (l.isEmpty && r.isEmpty) = true
    · rw [prune, if_pos hleaf]
      rw [Bool.and_eq_true] at hleaf
      intro q hq
      rcases q with _ | ⟨d, q⟩
      · exact absurd rfl hq
      · cases d
        · exact get_of_isEmpty hleaf.1 q
        · exact get_of_isEmpty hleaf.2 q
    · rw [prune, if_neg hleaf]
      rcases v with _ | v
      · rfl
      · intro q
        rcases q with _ | ⟨d, q⟩ <;> rfl
  | b :: p, .node v l r => by
    rw [prune_cons]
    exact leaves_shrink (leaves_prune p (child b l r))

/-- The root has a child. -/
def Branching : Radix α → Prop
  | .empty => False
  | .node _ l r => (l.isEmpty && r.isEmpty) = false

/-- **Deleting takes out one entry.** It fails only if there is none, and it
crashes only at the root of a tree without other nodes. -/
theorem leaves_delete (p : List Bool) (t : Radix α) : match delete p t with
    | .ok t' => ∀ q, get t' q = if q = p then none else get t q
    | .error => get t p = none
    | .crash => p = [] ∧ ¬ Branching t := by
  have hleaves := leaves_prune p t
  rw [delete]
  rcases hprune : prune p t with _ | _ | t'
  · rw [hprune] at hleaves
    exact hleaves
  · rw [hprune] at hleaves
    by_cases hp : p = []
    · subst hp
      refine ⟨rfl, fun hbranch => ?_⟩
      rcases t with _ | ⟨v, l, r⟩
      · exact hbranch
      · rw [prune, if_neg (by rw [hbranch]; simp)] at hprune
        split at hprune <;> cases hprune
    · simp only [if_neg hp]
      intro q
      have hroot : get (root : Radix α) q = none := by
        rcases q with _ | ⟨_ | _, q⟩ <;> rfl
      by_cases hq : q = p
      · rw [if_pos hq, hroot]
      · rw [if_neg hq, hroot, hleaves q hq]
  · rw [hprune] at hleaves
    exact hleaves

theorem fits_node {n : ℕ} {v w : Option α} {l r : Radix α} (h : Fits n (.node v l r)) : Fits n (.node w l r) := by
  cases n <;> exact h

theorem fits_prune : ∀ {n : ℕ} {p : List Bool} {t t' : Radix α}, Fits n t → prune p t = .kept t' → Fits n t'
  | _, [], .empty, _, _, h => by cases h
  | _, _ :: _, .empty, _, _, h => by cases h
  | n, [], .node v l r, t', hfits, h => by
    rw [prune] at h
    split_ifs at h
    cases h
    exact fits_node hfits
  | 0, b :: p, .node v l r, t', hfits, h => by
    obtain ⟨rfl, rfl⟩ := hfits
    have hchild : child b (.empty : Radix α) .empty = .empty := by cases b <;> rfl
    have herror : prune p (.empty : Radix α) = .error := by cases p <;> rfl
    rw [prune_cons, hchild, herror] at h
    cases h
  | n + 1, b :: p, .node v l r, t', hfits, h => by
    rw [prune_cons] at h
    rcases hc : prune p (child b l r) with _ | _ | c
    · rw [hc] at h
      cases h
    · rw [hc, shrink] at h
      split_ifs at h
      cases h
      exact fits_graft hfits (fits_empty n) b
    · rw [hc] at h
      cases h
      exact fits_graft hfits (fits_prune (fits_child hfits b) hc) b

theorem fits_root (n : ℕ) : Fits n (root : Radix α) := by
  cases n
  · exact ⟨rfl, rfl⟩
  · exact ⟨fits_empty _, fits_empty _⟩

theorem fits_delete {n : ℕ} {p : List Bool} {t t' : Radix α} (hfits : Fits n t) (h : delete p t = .ok t') :
    Fits n t' := by
  rw [delete] at h
  rcases hprune : prune p t with _ | _ | c
  · rw [hprune] at h
    cases h
  · rw [hprune] at h
    simp only at h
    split_ifs at h
    cases h
    exact fits_root n
  · rw [hprune] at h
    cases h
    exact fits_prune hfits hprune

/-! ### The root's children -/

theorem isEmpty_insert {v : Option α} : ∀ {p : List Bool} {t t' : Radix α}, insert p v t = some t' → t'.isEmpty = false
  | [], .empty, _, h => by
    obtain rfl := Option.some.inj h
    rfl
  | [], .node none _ _, _, h => by
    obtain rfl := Option.some.inj h
    rfl
  | b :: p, .empty, _, h => by
    obtain ⟨c, -, rfl⟩ := Option.map_eq_some_iff.mp h
    cases b <;> rfl
  | b :: p, .node _ _ _, _, h => by
    obtain ⟨c, -, rfl⟩ := Option.map_eq_some_iff.mp h
    cases b <;> rfl

theorem branching_graft {v : Option α} {l r c : Radix α} (h : c.isEmpty = false) (b : Bool) :
    Branching (graft v l r b c) := by
  cases b
  · show (c.isEmpty && r.isEmpty) = false
    rw [h, Bool.false_and]
  · show (l.isEmpty && c.isEmpty) = false
    rw [h, Bool.and_false]

theorem branching_insert_cons {b : Bool} {p : List Bool} {v : Option α} : ∀ {t t' : Radix α},
    insert (b :: p) v t = some t' → Branching t'
  | .empty, _, h => by
    obtain ⟨c, hc, rfl⟩ := Option.map_eq_some_iff.mp h
    exact branching_graft (isEmpty_insert hc) b
  | .node _ _ _, _, h => by
    obtain ⟨c, hc, rfl⟩ := Option.map_eq_some_iff.mp h
    exact branching_graft (isEmpty_insert hc) b

theorem branching_insert {p : List Bool} {v : Option α} {t t' : Radix α} (ht : Branching t)
    (h : insert p v t = some t') : Branching t' := by
  rcases p with _ | ⟨b, p⟩
  · rcases t with _ | ⟨_ | _, l, r⟩
    · exact absurd ht id
    · obtain rfl := Option.some.inj h
      exact ht
    · cases h
  · exact branching_insert_cons h

theorem branching_delete_nil {t t' : Radix α} (ht : Branching t) (h : delete [] t = .ok t') : Branching t' := by
  rcases t with _ | ⟨v, l, r⟩
  · exact absurd ht id
  · rw [delete, prune, if_neg (by rw [ht]; simp)] at h
    rcases v with _ | v
    · cases h
    · cases h
      exact ht

/-! ### A new tree -/

theorem length_path_le (key mask : ℕ) : (path key mask).length ≤ 32 := by
  rw [path, List.length_map]
  calc (((bits 32 key).zip (bits 32 mask)).takeWhile fun b => b.2).length
      ≤ ((bits 32 key).zip (bits 32 mask)).length := (List.takeWhile_sublist _).length_le
    _ = 32 := by rw [List.length_zip, length_bits, length_bits, min_self]

/-- No node has a value. -/
structure Blank (t : Radix α) : Prop where
  get (p : List Bool) : get t p = none
  fits : Fits 32 t

theorem blank_root : Blank (root : Radix α) where
  get p := by rcases p with _ | ⟨_ | _, p⟩ <;> rfl
  fits := fits_root 32

theorem insert_blank {t : Radix α} (h : Blank t) (key mask : ℕ) :
    ∃ t', insert (path key mask) none t = some t' ∧ Blank t' := by
  obtain ⟨t', ht'⟩ := insert_isSome (v := none) (path key mask) t (h.get _)
  refine ⟨t', ht', fun p => ?_, fits_insert (length_path_le key mask) h.fits ht'⟩
  rw [(get_insert ht').2 p, h.get p, ite_self]

/-- The nodes of `d + 1` bits are made. -/
theorem level_induction {P : Radix α → Prop} {t : Radix α} (d : ℕ) (ht : P t)
    (h : ∀ {t}, P t → ∀ j, P ((insert (path (j * 2 ^ (31 - d)) (maskOf (d + 1))) none t).getD t)) :
    P ((List.range (2 ^ (d + 1))).foldl (fun t j =>
      (insert (path (j * 2 ^ (31 - d)) (maskOf (d + 1))) none t).getD t) t) :=
  List.foldlRecOn _ _ ht fun _ hb j _ => h hb j

/-- **A new tree has no values**, and its root has children. -/
theorem create_spec (n : ℕ) : Blank (create α n) ∧ (0 < n → Branching (create α n)) := by
  have hstep : ∀ {t : Radix α}, Blank t → ∀ key mask, Blank ((insert (path key mask) none t).getD t) := by
    intro t ht key mask
    obtain ⟨t', hins, hblank⟩ := insert_blank ht key mask
    rw [hins]
    exact hblank
  have hkeep : ∀ {t : Radix α}, Branching t → ∀ key mask, Branching ((insert (path key mask) none t).getD t) := by
    intro t ht key mask
    rcases hins : insert (path key mask) none t with _ | t'
    · exact ht
    · exact branching_insert ht hins
  constructor
  · exact List.foldlRecOn _ _ blank_root fun _ hb d _ => level_induction d hb fun h j => hstep h _ _
  · intro hn
    obtain ⟨m, rfl⟩ := Nat.exists_eq_succ_of_ne_zero hn.ne'
    rw [create, List.range_succ_eq_map, List.foldl_cons]
    apply List.foldlRecOn
    · -- the first node of all is the left child of the root
      have hpath : path (0 * 2 ^ (31 - 0)) (maskOf (0 + 1)) = [false] := by decide
      rw [show List.range (2 ^ (0 + 1)) = [0, 1] from rfl, List.foldl_cons, List.foldl_cons, List.foldl_nil]
      apply hkeep
      rw [hpath]
      rfl
    · exact fun _ hb d _ => level_induction d hb fun h j => hkeep h _ _

/-! ### The path of a network -/

theorem map_fst_takeWhile_zip (s m : ℕ) : ∀ {xs : List Bool}, xs.length = s + m →
    ((xs.zip (List.replicate s true ++ List.replicate m false)).takeWhile fun b => b.2).map Prod.fst = xs.take s := by
  induction s with
  | zero =>
    intro xs h
    rcases m with _ | m <;> rcases xs with _ | ⟨x, xs⟩ <;> simp [List.replicate_succ]
  | succ s ih =>
    intro xs h
    rcases xs with _ | ⟨x, xs⟩
    · rfl
    · have hlen : xs.length = s + m := by
        rw [List.length_cons] at h
        omega
      rw [List.replicate_succ, List.cons_append, List.zip_cons_cons, List.takeWhile_cons_of_pos rfl, List.map_cons,
        ih hlen, List.take_succ_cons]

theorem bits_maskOf : ∀ s < 33, bits 32 (maskOf s) = List.replicate s true ++ List.replicate (32 - s) false := by
  decide +kernel

/-- The path of a network is the beginning of the address. -/
theorem path_maskOf {s : ℕ} (hs : s ≤ 32) (a : ℕ) : path a (maskOf s) = (bits 32 a).take s := by
  rw [path, bits_maskOf s (by omega)]
  apply map_fst_takeWhile_zip
  rw [length_bits]
  omega

/-- Two beginnings of addresses are the same exactly if they are as long and
the addresses are equal after division. -/
theorem take_bits_eq_iff {a b s l : ℕ} (ha : a < 2 ^ 32) (hb : b < 2 ^ 32) (hs : s ≤ 32) (hl : l ≤ 32) :
    (bits 32 a).take s = (bits 32 b).take l ↔ l = s ∧ a / 2 ^ (32 - s) = b / 2 ^ (32 - s) := by
  constructor
  · intro h
    have hlen : s = l := by
      have := congrArg List.length h
      rw [List.length_take, List.length_take, length_bits, length_bits] at this
      omega
    subst hlen
    refine ⟨rfl, ?_⟩
    have hprefix : (bits (s + (32 - s)) b).take s <+: bits (s + (32 - s)) a := by
      rw [Nat.add_sub_cancel' hs, ← h]
      exact List.take_prefix _ _
    refine (bits_prefix_iff ?_ ?_).mp hprefix
    · rwa [Nat.add_sub_cancel' hs]
    · rwa [Nat.add_sub_cancel' hs]
  · rintro ⟨rfl, h⟩
    have htake := take_bits l (32 - l)
    rw [Nat.add_sub_cancel' hs] at htake
    rw [htake, htake, h]

end Radix

end Nginx
end OpsScripts
