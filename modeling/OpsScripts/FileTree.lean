/-
# Directory trees

A tree maps paths to nodes: directories and regular files, each with the
time of its last change. A path is the list of its names, the last name
first, so `x :: d` is the entry `x` of the directory `d`. A `Tree` carries
its well-formedness: the root is a directory, and what has a parent has a
directory for a parent, so a tree with an entry below a regular file cannot
be built.

The operations are what system calls do to the tree: `write` creates or
replaces a regular file, `remove` unlinks one, `mkdir` makes a directory,
`removeTree` takes a directory with everything below it. Each leaves the tree
as it is where the call would fail. Adding or removing an entry changes the
time of its directory.

What an operation did is read through `file?` and `isDir`: one equation each
for an operation says which file stands at every path afterwards, and which
paths are directories.

Key definitions: `Tree`, `Tree.file?`, `Tree.isDir`, `Tree.names`.
Key theorems: `Tree.file?_write`, `Tree.file?_remove`, `Tree.file?_removeTree`,
`Tree.mem_names`, `Tree.isDir_of_mem_names`.
-/
import Mathlib

namespace OpsScripts

/-- A regular file: what it holds and when it was last modified. -/
structure File (α : Type) where
  data : α
  mtime : ℕ
  deriving DecidableEq

/-- A directory or a regular file. -/
inductive Node (α : Type)
  | dir (mtime : ℕ)
  | file (f : File α)
  deriving DecidableEq

namespace Node

variable {α : Type}

def isDir : Node α → Bool
  | dir _ => true
  | file _ => false

def file? : Node α → Option (File α)
  | dir _ => none
  | file f => some f

def mtime : Node α → ℕ
  | dir s => s
  | file f => f.mtime

end Node

/-- A directory tree with names `ν` and contents `α`. Paths have the last
name first. -/
structure Tree (ν α : Type) [DecidableEq ν] where
  nodes : AList fun _ : List ν => Node α
  root : ∃ s, nodes.lookup [] = some (.dir s)
  parent : ∀ x d, (nodes.lookup (x :: d)).isSome → ∃ s, nodes.lookup d = some (.dir s)

namespace Tree

variable {ν α : Type} [DecidableEq ν]

/-- The node at a path. -/
def node? (t : Tree ν α) (p : List ν) : Option (Node α) := t.nodes.lookup p

/-- The regular file at a path. -/
def file? (t : Tree ν α) (p : List ν) : Option (File α) := (t.node? p).bind Node.file?

/-- `[ -d p ]`. -/
def isDir (t : Tree ν α) (p : List ν) : Bool :=
  match t.node? p with
  | some n => n.isDir
  | none => false

/-- Every path of the tree. -/
def paths (t : Tree ν α) : List (List ν) := t.nodes.keys

/-- The name of `p` if `p` is an entry of `d`. -/
def nameIn (d : List ν) : List ν → Option ν
  | [] => none
  | x :: d' => if d' = d then some x else none

/-- The names of the entries of a directory. -/
def names (t : Tree ν α) (d : List ν) : List ν := t.paths.filterMap (nameIn d)

/-! ### Reading a tree -/

theorem isDir_iff (t : Tree ν α) (p : List ν) : t.isDir p = true ↔ ∃ s, t.node? p = some (.dir s) := by
  unfold isDir
  rcases t.node? p with _ | n
  · simp
  · cases n <;> simp [Node.isDir]

theorem file?_eq_some (t : Tree ν α) (p : List ν) (f : File α) :
    t.file? p = some f ↔ t.node? p = some (.file f) := by
  unfold file?
  rcases t.node? p with _ | n
  · simp
  · cases n <;> simp [Node.file?]

theorem node?_isSome (t : Tree ν α) (p : List ν) :
    (t.node? p).isSome = true ↔ (t.file? p).isSome = true ∨ t.isDir p = true := by
  unfold file? isDir
  rcases t.node? p with _ | n
  · simp
  · cases n <;> simp [Node.file?, Node.isDir]

theorem file?_of_isDir {t : Tree ν α} {p : List ν} (h : t.isDir p = true) : t.file? p = none := by
  obtain ⟨s, hs⟩ := (t.isDir_iff p).mp h
  simp [file?, hs, Node.file?]

theorem isDir_of_file? {t : Tree ν α} {p : List ν} {f : File α} (h : t.file? p = some f) :
    t.isDir p = false := by
  rw [file?_eq_some] at h
  simp [isDir, h, Node.isDir]

theorem isDir_nil (t : Tree ν α) : t.isDir [] = true := (t.isDir_iff []).mpr t.root

theorem mem_paths (t : Tree ν α) (p : List ν) : p ∈ t.paths ↔ (t.node? p).isSome = true := by
  rw [paths, ← AList.mem_keys, node?, AList.lookup_isSome]

theorem nameIn_eq_some (d p : List ν) (x : ν) : nameIn d p = some x ↔ p = x :: d := by
  rcases p with _ | ⟨y, d'⟩
  · simp [nameIn]
  · by_cases h : d' = d
    · simp [nameIn, h]
    · simp [nameIn, h]

/-- The names of a directory are those of its regular files and its
directories. -/
theorem mem_names (t : Tree ν α) (d : List ν) (x : ν) :
    x ∈ t.names d ↔ (t.file? (x :: d)).isSome = true ∨ t.isDir (x :: d) = true := by
  rw [← node?_isSome, ← mem_paths, names, List.mem_filterMap]
  constructor
  · rintro ⟨p, hp, hx⟩
    rw [nameIn_eq_some] at hx
    exact hx ▸ hp
  · intro h
    exact ⟨x :: d, h, (nameIn_eq_some d _ x).mpr rfl⟩

theorem names_nodup (t : Tree ν α) (d : List ν) : (t.names d).Nodup := by
  refine List.Nodup.filterMap ?_ t.nodes.keys_nodup
  intro p q x hp hq
  rw [Option.mem_def, nameIn_eq_some] at hp hq
  rw [hp, hq]

/-- What has entries is a directory. -/
theorem isDir_of_mem_names {t : Tree ν α} {d : List ν} {x : ν} (h : x ∈ t.names d) :
    t.isDir d = true := by
  rw [mem_names, ← node?_isSome] at h
  exact (t.isDir_iff d).mpr (t.parent x d h)

theorem isDir_parent {t : Tree ν α} {x : ν} {d : List ν} (h : t.isDir (x :: d) = true) :
    t.isDir d = true :=
  isDir_of_mem_names ((t.mem_names d x).mpr (Or.inr h))

/-! ### The two edits every operation is made of -/

/-- A node may stand at `p`: a directory stays a directory, and the parent is
one. -/
def Fits (t : Tree ν α) (p : List ν) (n : Node α) : Prop :=
  (t.isDir p = true → n.isDir = true) ∧
    match p with
    | [] => n.isDir = true
    | _ :: d => t.isDir d = true

instance (t : Tree ν α) (p : List ν) (n : Node α) : Decidable (t.Fits p n) := by
  unfold Fits
  cases p <;> infer_instance

/-- The tree with the node at `p` set. -/
def put (t : Tree ν α) (p : List ν) (n : Node α) (h : t.Fits p n) : Tree ν α where
  nodes := t.nodes.insert p n
  root := by
    by_cases hp : p = []
    · subst hp
      cases n with
      | dir s => exact ⟨s, AList.lookup_insert _⟩
      | file f => exact absurd h.2 (by simp [Node.isDir])
    · rw [AList.lookup_insert_ne (Ne.symm hp)]
      exact t.root
  parent := by
    intro x d hx
    -- the parent is a directory of the old tree, and stays one
    have hd : t.isDir d = true := by
      by_cases hp : x :: d = p
      · subst hp; exact h.2
      · rw [AList.lookup_insert_ne hp] at hx
        exact (t.isDir_iff d).mpr (t.parent x d hx)
    by_cases hdp : d = p
    · subst hdp
      cases n with
      | dir s => exact ⟨s, AList.lookup_insert _⟩
      | file f => exact absurd (h.1 hd) (by simp [Node.isDir])
    · rw [AList.lookup_insert_ne hdp]
      exact (t.isDir_iff d).mp hd

theorem node?_put (t : Tree ν α) (p : List ν) (n : Node α) (h : t.Fits p n) (q : List ν) :
    (t.put p n h).node? q = if q = p then some n else t.node? q := by
  unfold put node?
  by_cases hq : q = p
  · subst hq; simp
  · simp [hq, AList.lookup_insert_ne hq]

/-- A list of keys erased one after another. -/
def eraseKeys {β : List ν → Type} (ps : List (List ν)) (s : AList β) : AList β :=
  ps.foldl (fun s p => s.erase p) s

theorem lookup_eraseKeys {β : List ν → Type} : ∀ (ps : List (List ν)) (s : AList β) (q : List ν),
    (eraseKeys ps s).lookup q = if q ∈ ps then none else s.lookup q
  | [], s, q => by simp [eraseKeys]
  | p :: ps, s, q => by
    have ih := lookup_eraseKeys ps (s.erase p) q
    simp only [eraseKeys, List.foldl_cons] at ih ⊢
    rw [ih]
    by_cases hqp : q = p
    · subst hqp; simp
    · simp [hqp, AList.lookup_erase_ne hqp]

/-- The tree without the paths `ps`: none of them is the root, and with a
directory everything in it goes. -/
def eraseAll (t : Tree ν α) (ps : List (List ν)) (hroot : [] ∉ ps)
    (hbelow : ∀ x d, d ∈ ps → (t.node? (x :: d)).isSome = true → x :: d ∈ ps) : Tree ν α where
  nodes := eraseKeys ps t.nodes
  root := by
    rw [lookup_eraseKeys, if_neg hroot]
    exact t.root
  parent := by
    intro x d hx
    rw [lookup_eraseKeys] at hx ⊢
    by_cases hxd : x :: d ∈ ps
    · simp [hxd] at hx
    · rw [if_neg hxd] at hx
      rw [if_neg fun hd => hxd (hbelow x d hd hx)]
      exact t.parent x d hx

theorem node?_eraseAll (t : Tree ν α) (ps : List (List ν)) (h1 h2) (q : List ν) :
    (t.eraseAll ps h1 h2).node? q = if q ∈ ps then none else t.node? q :=
  lookup_eraseKeys ps t.nodes q

/-! ### The operations -/

/-- The time of a directory, set. -/
def touch (t : Tree ν α) (now : ℕ) (d : List ν) : Tree ν α :=
  if h : t.Fits d (.dir now) ∧ t.isDir d = true then t.put d (.dir now) h.1 else t

/-- A regular file can be written at `p`: the parent is a directory, `p` is
not. -/
def writable (t : Tree ν α) (p : List ν) : Bool :=
  !t.isDir p &&
    match p with
    | [] => false
    | _ :: d => t.isDir d

theorem fits_of_writable {t : Tree ν α} {p : List ν} (f : File α) (h : t.writable p = true) :
    t.Fits p (.file f) := by
  unfold writable at h
  rw [Bool.and_eq_true] at h
  refine ⟨fun hd => by simp [hd] at h, ?_⟩
  cases p with
  | nil => simp at h
  | cons x d => exact h.2

/-- The file at `p` created or replaced. -/
def write (t : Tree ν α) (now : ℕ) (p : List ν) (f : File α) : Tree ν α :=
  if h : t.writable p = true then
    let t' := t.put p (.file f) (fits_of_writable f h)
    if (t.node? p).isSome then t' else t'.touch now p.tail
  else t

/-- The file at `p` unlinked. -/
def remove (t : Tree ν α) (now : ℕ) (p : List ν) : Tree ν α :=
  if h : (t.file? p).isSome = true then
    (t.eraseAll [p]
      (by
        intro hp
        rw [List.mem_singleton] at hp
        rw [← hp, file?_of_isDir t.isDir_nil] at h
        simp at h)
      (by
        intro x d hd hx
        rw [List.mem_singleton] at hd
        subst hd
        have := (t.isDir_iff d).mpr (t.parent x d hx)
        rw [file?_of_isDir this] at h
        simp at h)).touch now p.tail
  else t

/-- The directory `p` made, if nothing stands there. -/
def mkdir (t : Tree ν α) (now : ℕ) (p : List ν) : Tree ν α :=
  if (t.node? p).isSome then t
  else if h : t.Fits p (.dir now) then (t.put p (.dir now) h).touch now p.tail
  else t

/-- `mkdir -p`: every missing directory on the way, the outermost first. -/
def mkdirP (t : Tree ν α) (now : ℕ) : List ν → Tree ν α
  | [] => t
  | x :: d => (t.mkdirP now d).mkdir now (x :: d)

/-- The paths at or below `p`. -/
def below (t : Tree ν α) (p : List ν) : List (List ν) := t.paths.filter fun q => p <:+ q

/-- The directory `p` with everything below it removed. -/
def removeTree (t : Tree ν α) (now : ℕ) (p : List ν) : Tree ν α :=
  if h : p ≠ [] then
    (t.eraseAll (t.below p)
      (by simpa [below] using fun _ => h)
      (by
        intro x d hd hx
        simp only [below, List.mem_filter, decide_eq_true_eq] at hd ⊢
        exact ⟨(t.mem_paths _).mpr hx, hd.2.trans (List.suffix_cons x d)⟩)).touch now p.tail
  else t

/-- The tree with nothing but its root. -/
def bare (ν α : Type) [DecidableEq ν] : Tree ν α where
  nodes := (∅ : AList _).insert [] (.dir 0)
  root := ⟨0, AList.lookup_insert _⟩
  parent := by
    intro x d h
    rw [AList.lookup_insert_ne (by simp), AList.lookup_empty] at h
    cases h

theorem node?_bare (p : List ν) : (bare ν α).node? p = if p = [] then some (.dir 0) else none := by
  change AList.lookup p ((∅ : AList fun _ : List ν => Node α).insert [] (.dir 0)) = _
  by_cases h : p = []
  · subst h
    rw [if_pos rfl, AList.lookup_insert]
  · rw [if_neg h, AList.lookup_insert_ne h, AList.lookup_empty]

/-! ### What the operations do -/

@[simp] theorem isDir_touch (t : Tree ν α) (now : ℕ) (d q : List ν) :
    (t.touch now d).isDir q = t.isDir q := by
  unfold touch
  split
  · rename_i h
    unfold isDir
    rw [node?_put]
    by_cases hq : q = d
    · subst hq
      obtain ⟨s, hs⟩ := (t.isDir_iff q).mp h.2
      simp [hs, Node.isDir]
    · simp [hq]
  · rfl

@[simp] theorem file?_touch (t : Tree ν α) (now : ℕ) (d q : List ν) :
    (t.touch now d).file? q = t.file? q := by
  unfold touch
  split
  · rename_i h
    by_cases hq : q = d
    · subst hq
      rw [file?_of_isDir h.2]
      simp [file?, node?_put, Node.file?]
    · simp [file?, node?_put, hq]
  · rfl

theorem file?_put_file (t : Tree ν α) (p q : List ν) (f : File α) (h : t.Fits p (.file f)) :
    (t.put p (.file f) h).file? q = if q = p then some f else t.file? q := by
  by_cases hq : q = p
  · simp [file?, node?_put, hq, Node.file?]
  · simp [file?, node?_put, hq]

theorem isDir_put_file (t : Tree ν α) (p q : List ν) (f : File α) (h : t.Fits p (.file f)) :
    (t.put p (.file f) h).isDir q = t.isDir q := by
  unfold isDir
  rw [node?_put]
  by_cases hq : q = p
  · subst hq
    have hd : t.isDir q = false := by
      rw [Bool.eq_false_iff]
      exact fun hd => absurd (h.1 hd) (by simp [Node.isDir])
    rw [if_pos rfl]
    exact hd.symm
  · simp [hq]

/-- A write changes the file at its path and no other. -/
theorem file?_write (t : Tree ν α) (now : ℕ) (p q : List ν) (f : File α) :
    (t.write now p f).file? q = if q = p ∧ t.writable p = true then some f else t.file? q := by
  unfold write
  by_cases h : t.writable p = true
  · rw [dif_pos h]
    dsimp only
    split
    · simp [file?_put_file, h]
    · simp [file?_put_file, h]
  · rw [dif_neg h]
    simp [h]

@[simp] theorem isDir_write (t : Tree ν α) (now : ℕ) (p q : List ν) (f : File α) :
    (t.write now p f).isDir q = t.isDir q := by
  unfold write
  split
  · dsimp only
    split
    · exact isDir_put_file ..
    · rw [isDir_touch]; exact isDir_put_file ..
  · rfl

@[simp] theorem writable_write (t : Tree ν α) (now : ℕ) (p q : List ν) (f : File α) :
    (t.write now p f).writable q = t.writable q := by
  unfold writable
  cases q <;> simp

/-- An unlink takes the file at its path and no other. -/
theorem file?_remove (t : Tree ν α) (now : ℕ) (p q : List ν) :
    (t.remove now p).file? q = if q = p then none else t.file? q := by
  unfold remove
  split
  · rw [file?_touch, file?, node?_eraseAll]
    by_cases hq : q = p
    · simp [hq]
    · simp [hq, file?]
  · rename_i h
    by_cases hq : q = p
    · subst hq; simpa using h
    · simp [hq]

@[simp] theorem isDir_remove (t : Tree ν α) (now : ℕ) (p q : List ν) :
    (t.remove now p).isDir q = t.isDir q := by
  unfold remove
  split
  · rename_i h
    rw [isDir_touch, isDir, node?_eraseAll]
    by_cases hq : q = p
    · subst hq
      obtain ⟨f, hf⟩ := Option.isSome_iff_exists.mp h
      simp [isDir_of_file? hf]
    · simp [hq, isDir]
  · rfl

theorem writable_remove (t : Tree ν α) (now : ℕ) (p q : List ν) :
    (t.remove now p).writable q = t.writable q := by
  unfold writable
  cases q <;> simp

@[simp] theorem file?_mkdir (t : Tree ν α) (now : ℕ) (p q : List ν) :
    (t.mkdir now p).file? q = t.file? q := by
  unfold mkdir
  split
  · rfl
  · rename_i hn
    split
    · rw [file?_touch]
      by_cases hq : q = p
      · subst hq
        have : t.node? q = none := by simpa using hn
        simp [file?, node?_put, this, Node.file?]
      · simp [file?, node?_put, hq]
    · rfl

theorem isDir_mkdir_of_isDir {t : Tree ν α} (now : ℕ) (p : List ν) {q : List ν}
    (h : t.isDir q = true) : (t.mkdir now p).isDir q = true := by
  unfold mkdir
  split
  · exact h
  · split
    · rw [isDir_touch, isDir, node?_put]
      by_cases hq : q = p
      · simp [hq, Node.isDir]
      · simpa [hq, isDir] using h
    · exact h

/-- A new directory is the one that was asked for. -/
theorem isDir_mkdir {t : Tree ν α} (now : ℕ) (p : List ν) {q : List ν}
    (h : (t.mkdir now p).isDir q = true) : t.isDir q = true ∨ q = p := by
  unfold mkdir at h
  split at h
  · exact Or.inl h
  · split at h
    · rw [isDir_touch, isDir, node?_put] at h
      by_cases hq : q = p
      · exact Or.inr hq
      · rw [if_neg hq] at h
        exact Or.inl h
    · exact Or.inl h

@[simp] theorem file?_mkdirP (t : Tree ν α) (now : ℕ) : ∀ (p q : List ν),
    (t.mkdirP now p).file? q = t.file? q
  | [], _ => rfl
  | x :: d, q => by rw [mkdirP, file?_mkdir, file?_mkdirP t now d]

theorem isDir_mkdirP_of_isDir {t : Tree ν α} (now : ℕ) : ∀ (p : List ν) {q : List ν},
    t.isDir q = true → (t.mkdirP now p).isDir q = true
  | [], _, h => h
  | _ :: d, _, h => isDir_mkdir_of_isDir now _ (isDir_mkdirP_of_isDir now d h)

theorem isDir_mkdirP {t : Tree ν α} (now : ℕ) : ∀ (p : List ν) {q : List ν},
    (t.mkdirP now p).isDir q = true → t.isDir q = true ∨ q <:+ p
  | [], _, h => Or.inl h
  | x :: d, q, h => by
    rcases isDir_mkdir now _ h with h | rfl
    · exact (isDir_mkdirP now d h).imp id fun h => h.trans (List.suffix_cons x d)
    · exact Or.inr (List.suffix_refl _)

/-- The directory is there if no file is in the way. -/
theorem isDir_mkdirP_self {t : Tree ν α} (now : ℕ) : ∀ p : List ν, (∀ q, q <:+ p → t.file? q = none) →
    (t.mkdirP now p).isDir p = true
  | [], _ => isDir_nil _
  | x :: d, h => by
    have hd : (t.mkdirP now d).isDir d = true :=
      isDir_mkdirP_self now d fun q hq => h q (hq.trans (List.suffix_cons x d))
    rw [mkdirP, mkdir]
    split
    · rename_i hn
      rw [node?_isSome, file?_mkdirP, h _ (List.suffix_refl _)] at hn
      exact hn.resolve_left (by simp)
    · have hfits : (t.mkdirP now d).Fits (x :: d) (.dir now) := ⟨fun _ => rfl, hd⟩
      rw [dif_pos hfits, isDir_touch, isDir, node?_put, if_pos rfl]
      rfl

theorem file?_bare (p : List ν) : (bare ν α).file? p = none := by
  rw [file?, node?_bare]
  split <;> rfl

theorem isDir_bare {p : List ν} (h : (bare ν α).isDir p = true) : p = [] := by
  obtain ⟨s, hs⟩ := (isDir_iff ..).mp h
  by_contra hp
  rw [node?_bare, if_neg hp] at hs
  cases hs

/-- A recursive removal takes the files at and below its path. -/
theorem file?_removeTree (t : Tree ν α) (now : ℕ) (p q : List ν) :
    (t.removeTree now p).file? q = if p ≠ [] ∧ p <:+ q then none else t.file? q := by
  unfold removeTree
  split
  · rename_i hp
    rw [file?_touch, file?, node?_eraseAll]
    by_cases hq : p <:+ q
    · by_cases hm : (t.node? q).isSome = true
      · simp [below, mem_paths, hq, hp, hm]
      · have : t.node? q = none := by simpa using hm
        simp [hq, hp, this]
    · simp [below, hq, file?]
  · rename_i hp
    simp [hp]

end Tree

end OpsScripts
