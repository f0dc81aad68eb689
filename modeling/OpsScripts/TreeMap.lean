/-
# Trees with other contents

A function on contents acts on a tree file by file; names, directories and
times stay. If it respects what a redirection does to contents (`ContentHom`),
then it does not matter whether a file tool runs before or after it: one
equation for each tool, `Tree.map_appendTo`, `Tree.map_findDelete`,
`Tree.map_findGzip`, `Tree.map_prune`, `Tree.map_mvFile`.

Key definitions: `Tree.map`, `ContentHom`.
-/
import OpsScripts.Xargs

namespace OpsScripts

variable {ν α β : Type}

def File.map (φ : α → β) (f : File α) : File β := ⟨φ f.data, f.mtime⟩

def Node.map (φ : α → β) : Node α → Node β
  | .dir s => .dir s
  | .file f => .file (f.map φ)

@[simp] theorem Node.isDir_map (φ : α → β) (n : Node α) : (n.map φ).isDir = n.isDir := by cases n <;> rfl

@[simp] theorem Node.mtime_map (φ : α → β) (n : Node α) : (n.map φ).mtime = n.mtime := by cases n <;> rfl

@[simp] theorem Node.file?_map (φ : α → β) (n : Node α) : (n.map φ).file? = n.file?.map (File.map φ) := by
  cases n <;> rfl

namespace Tree

section Nodes

variable [DecidableEq ν]

/-- An entry with its node mapped. -/
def mapEntry (φ : α → β) : (Σ _ : List ν, Node α) → Σ _ : List ν, Node β := Sigma.map id fun _ => Node.map φ

/-- The entries with mapped nodes. -/
def mapNodes (φ : α → β) (s : AList fun _ : List ν => Node α) : AList fun _ : List ν => Node β where
  entries := s.entries.map (mapEntry φ)
  nodupKeys := by
    rw [List.NodupKeys, List.keys, List.map_map]
    exact s.nodupKeys

theorem lookup_mapNodes (φ : α → β) (s : AList fun _ : List ν => Node α) (p : List ν) :
    (mapNodes φ s).lookup p = (s.lookup p).map (Node.map φ) :=
  List.dlookup_map₂ p

theorem kerase_map (φ : α → β) (p : List ν) (l : List (Σ _ : List ν, Node α)) :
    List.kerase p (l.map (mapEntry φ)) = (List.kerase p l).map (mapEntry φ) := by
  rw [List.kerase, List.eraseP_map]
  rfl

theorem mapNodes_insert (φ : α → β) (s : AList fun _ : List ν => Node α) (p : List ν) (n : Node α) :
    mapNodes φ (s.insert p n) = (mapNodes φ s).insert p (n.map φ) := by
  apply AList.ext
  simp only [mapNodes, AList.entries_insert, kerase_map]
  rfl

theorem mapNodes_erase (φ : α → β) (s : AList fun _ : List ν => Node α) (p : List ν) :
    mapNodes φ (s.erase p) = (mapNodes φ s).erase p := by
  apply AList.ext
  exact (kerase_map φ p s.entries).symm

theorem mapNodes_eraseKeys (φ : α → β) : ∀ (ps : List (List ν)) (s : AList fun _ : List ν => Node α),
    mapNodes φ (eraseKeys ps s) = eraseKeys ps (mapNodes φ s)
  | [], _ => rfl
  | p :: ps, s => by
    have ih := mapNodes_eraseKeys φ ps (s.erase p)
    simp only [eraseKeys, List.foldl_cons] at ih ⊢
    rw [ih, mapNodes_erase]

/-- The tree with mapped contents. -/
def map (φ : α → β) (t : Tree ν α) : Tree ν β where
  nodes := mapNodes φ t.nodes
  root := by
    obtain ⟨s, hs⟩ := t.root
    exact ⟨s, by rw [lookup_mapNodes, hs]; rfl⟩
  parent := by
    intro x d h
    rw [lookup_mapNodes, Option.isSome_map] at h
    obtain ⟨s, hs⟩ := t.parent x d h
    exact ⟨s, by rw [lookup_mapNodes, hs]; rfl⟩

/-- Trees with the same nodes are the same. -/
theorem ext_nodes {t t' : Tree ν α} (h : t.nodes = t'.nodes) : t = t' := by
  cases t
  cases t'
  cases h
  rfl

/-! ### Reading -/

@[simp] theorem node?_map (φ : α → β) (t : Tree ν α) (p : List ν) :
    (t.map φ).node? p = (t.node? p).map (Node.map φ) :=
  lookup_mapNodes φ t.nodes p

@[simp] theorem file?_map (φ : α → β) (t : Tree ν α) (p : List ν) :
    (t.map φ).file? p = (t.file? p).map (File.map φ) := by
  rw [file?, file?, node?_map]
  cases t.node? p with
  | none => rfl
  | some n => exact n.file?_map φ

@[simp] theorem isDir_map (φ : α → β) (t : Tree ν α) (p : List ν) : (t.map φ).isDir p = t.isDir p := by
  rw [isDir, isDir, node?_map]
  cases t.node? p with
  | none => rfl
  | some n => exact n.isDir_map φ

@[simp] theorem paths_map (φ : α → β) (t : Tree ν α) : (t.map φ).paths = t.paths := by
  simp only [paths, map, mapNodes, AList.keys, List.keys, List.map_map]
  rfl

@[simp] theorem names_map (φ : α → β) (t : Tree ν α) (d : List ν) : (t.map φ).names d = t.names d := by
  rw [names, names, paths_map]

@[simp] theorem writable_map (φ : α → β) (t : Tree ν α) (p : List ν) : (t.map φ).writable p = t.writable p := by
  unfold writable
  cases p <;> simp

theorem fits_map (φ : α → β) (t : Tree ν α) (p : List ν) (n : Node α) :
    (t.map φ).Fits p (n.map φ) ↔ t.Fits p n := by
  unfold Fits
  cases p <;> simp

/-- Mapping twice is mapping once. -/
theorem map_map {γ : Type} (φ : α → β) (ψ : β → γ) (t : Tree ν α) : (t.map φ).map ψ = t.map (ψ ∘ φ) := by
  apply ext_nodes
  apply AList.ext
  simp only [map, mapNodes, List.map_map]
  refine List.map_congr_left fun e _ => ?_
  obtain ⟨p, n⟩ := e
  cases n <;> rfl

theorem map_id (t : Tree ν α) : t.map id = t := by
  apply ext_nodes
  apply AList.ext
  simp only [map, mapNodes]
  conv_rhs => rw [← List.map_id t.nodes.entries]
  refine List.map_congr_left fun e _ => ?_
  obtain ⟨p, n⟩ := e
  cases n <;> rfl

/-! ### System calls -/

theorem map_put (φ : α → β) (t : Tree ν α) (p : List ν) (n : Node α) (h : t.Fits p n) :
    (t.put p n h).map φ = (t.map φ).put p (n.map φ) ((fits_map φ t p n).mpr h) :=
  ext_nodes (mapNodes_insert φ t.nodes p n)

theorem map_eraseAll (φ : α → β) (t : Tree ν α) (ps : List (List ν)) (h₁ h₂ h₁' h₂') :
    (t.eraseAll ps h₁ h₂).map φ = (t.map φ).eraseAll ps h₁' h₂' :=
  ext_nodes (mapNodes_eraseKeys φ ps t.nodes)

@[simp] theorem map_touch (φ : α → β) (t : Tree ν α) (now : ℕ) (d : List ν) :
    (t.touch now d).map φ = (t.map φ).touch now d := by
  have hiff : t.Fits d (.dir now) ∧ t.isDir d = true ↔
      (t.map φ).Fits d (.dir now) ∧ (t.map φ).isDir d = true := by
    rw [isDir_map]
    exact and_congr_left fun _ => (fits_map φ t d (.dir now)).symm
  unfold touch
  by_cases h : t.Fits d (.dir now) ∧ t.isDir d = true
  · rw [dif_pos h, dif_pos (hiff.mp h), map_put]
    rfl
  · rw [dif_neg h, dif_neg fun h' => h (hiff.mpr h')]

@[simp] theorem map_write (φ : α → β) (t : Tree ν α) (now : ℕ) (p : List ν) (f : File α) :
    (t.write now p f).map φ = (t.map φ).write now p (f.map φ) := by
  unfold write
  by_cases h : t.writable p = true
  · rw [dif_pos h, dif_pos ((writable_map φ t p).trans h)]
    dsimp only
    rw [node?_map, Option.isSome_map]
    split
    · exact map_put φ t p (.file f) _
    · rw [map_touch, map_put]
      rfl
  · rw [dif_neg h, dif_neg fun h' => h ((writable_map φ t p).symm.trans h')]

@[simp] theorem map_remove (φ : α → β) (t : Tree ν α) (now : ℕ) (p : List ν) :
    (t.remove now p).map φ = (t.map φ).remove now p := by
  unfold remove
  by_cases h : (t.file? p).isSome = true
  · have h' : ((t.map φ).file? p).isSome = true := by rw [file?_map, Option.isSome_map]; exact h
    rw [dif_pos h, dif_pos h', map_touch]
    congr 1
    exact map_eraseAll ..
  · have h' : ¬ ((t.map φ).file? p).isSome = true := by rw [file?_map, Option.isSome_map]; exact h
    rw [dif_neg h, dif_neg h']

@[simp] theorem map_mkdir (φ : α → β) (t : Tree ν α) (now : ℕ) (p : List ν) :
    (t.mkdir now p).map φ = (t.map φ).mkdir now p := by
  unfold mkdir
  rw [node?_map, Option.isSome_map]
  split
  · rfl
  · have hiff : (t.map φ).Fits p (.dir now) ↔ t.Fits p (.dir now) := fits_map φ t p (.dir now)
    by_cases h : t.Fits p (.dir now)
    · rw [dif_pos h, dif_pos (hiff.mpr h), map_touch, map_put]
      rfl
    · rw [dif_neg h, dif_neg fun h' => h (hiff.mp h')]

@[simp] theorem map_mkdirP (φ : α → β) (t : Tree ν α) (now : ℕ) : ∀ p : List ν,
    (t.mkdirP now p).map φ = (t.map φ).mkdirP now p
  | [] => rfl
  | x :: d => by rw [mkdirP, mkdirP, map_mkdir, map_mkdirP φ t now d]

@[simp] theorem map_removeTree (φ : α → β) (t : Tree ν α) (now : ℕ) (p : List ν) :
    (t.removeTree now p).map φ = (t.map φ).removeTree now p := by
  have hbelow : (t.map φ).below p = t.below p := by rw [below, below, paths_map]
  unfold removeTree
  by_cases h : p ≠ []
  · rw [dif_pos h, dif_pos h, map_touch]
    congr 1
    refine (map_eraseAll φ t (t.below p) _ _ (by simpa [below] using fun _ => h) ?_).trans ?_
    · intro x d hd hx
      rw [node?_map, Option.isSome_map] at hx
      simp only [below, List.mem_filter, decide_eq_true_eq] at hd ⊢
      exact ⟨(t.mem_paths _).mpr hx, hd.2.trans (List.suffix_cons x d)⟩
    · congr 1
      exact hbelow.symm
  · rw [dif_neg h, dif_neg h]

end Nodes

/-! ### Tools that do not look at contents -/

theorem find_map (φ : α → β) (t : Tree Name α) (dir : Path) (test : Path → File α → Bool) (test' : Path → File β → Bool)
    (h : ∀ p f, test' p (f.map φ) = test p f) : (t.map φ).find dir test' = t.find dir test := by
  rw [find, find, paths_map]
  refine List.filter_congr fun p _ => ?_
  rw [file?_map]
  cases t.file? p with
  | none => rfl
  | some f => simp [h]

theorem map_removeAll (φ : α → β) (now : ℕ) : ∀ (ps : List Path) (t : Tree Name α),
    (t.removeAll now ps).map φ = (t.map φ).removeAll now ps
  | [], _ => rfl
  | p :: ps, t => by
    have ih := map_removeAll φ now ps (t.remove now p)
    simp only [removeAll, List.foldl_cons] at ih ⊢
    rw [ih, map_remove]

theorem map_findDelete (φ : α → β) (t : Tree Name α) (now : ℕ) (dir : Path) (suf : Text) (days : ℕ) :
    (t.findDelete now dir suf days).map φ = (t.map φ).findDelete now dir suf days := by
  have hfind : ((t.map φ).find dir fun p f => hasSuffix suf p && olderThan days now f) =
      t.find dir fun p f => hasSuffix suf p && olderThan days now f := find_map φ t dir _ _ fun _ _ => rfl
  rw [findDelete, findDelete, map_removeAll, hfind]

theorem map_gzip (φ : α → β) (t : Tree Name α) (now : ℕ) (p : Path) :
    (t.gzip now p).map φ = (t.map φ).gzip now p := by
  unfold gzip
  rw [file?_map, node?_map, Option.isSome_map]
  cases t.file? p with
  | none => rfl
  | some f =>
    simp only [Option.map_some]
    split
    · rfl
    · rw [map_remove, map_write]

theorem map_gzipAll (φ : α → β) (now : ℕ) : ∀ (ps : List Path) (t : Tree Name α),
    (t.gzipAll now ps).map φ = (t.map φ).gzipAll now ps
  | [], _ => rfl
  | p :: ps, t => by
    have ih := map_gzipAll φ now ps (t.gzip now p)
    simp only [gzipAll, List.foldl_cons] at ih ⊢
    rw [ih, map_gzip]

theorem map_mvFile (φ : α → β) (t : Tree Name α) (now : ℕ) (src dst : Path) :
    (t.mvFile now src dst).map φ = (t.map φ).mvFile now src dst := by
  have htarget : (t.map φ).mvTarget src dst = t.mvTarget src dst := by
    unfold mvTarget
    cases src <;> simp
  unfold mvFile
  rw [file?_map, htarget, writable_map]
  cases t.file? src with
  | none => rfl
  | some f =>
    simp only [Option.map_some]
    split
    · rw [map_remove, map_write]
    · rfl

/-! ### Pruning -/

theorem mtime_map (φ : α → β) (t : Tree Name α) (p : Path) : (t.map φ).mtime p = t.mtime p := by
  rw [mtime, mtime, node?_map]
  cases t.node? p with
  | none => rfl
  | some n => exact n.mtime_map φ

theorem newest_map (φ : α → β) (t : Tree Name α) (d : Path) (xs : List Name) :
    (t.map φ).newest d xs = t.newest d xs := by
  have hrel : (t.map φ).Newer d = t.Newer d := by
    funext x y
    simp only [Newer, mtime_map]
  unfold newest
  congr

theorem lsNewest_map (φ : α → β) (t : Tree Name α) (d : Path) (xs : List Name) :
    (t.map φ).lsNewest d xs = t.lsNewest d xs := by
  simp only [lsNewest, lsEntries, newest_map, names_map, isDir_map]

theorem glob_map (φ : α → β) (t : Tree Name α) (d : Path) (pre : Text) : (t.map φ).glob d pre = t.glob d pre := by
  rw [glob, glob, names_map]

theorem resolve_map (φ : α → β) (t : Tree Name α) (cwd : Path) (w : Text) :
    (t.map φ).resolve cwd w = t.resolve cwd w := by
  have hwalk : (t.map φ).walk = t.walk := by
    funext p x
    simp only [walk, isDir_map]
  unfold resolve
  rw [hwalk]

theorem map_rmOperand (φ : α → β) (t : Tree Name α) (now : ℕ) (o : RmOptions) (cwd : Path) (w : Text) :
    (t.rmOperand now o cwd w).map φ = (t.map φ).rmOperand now o cwd w := by
  unfold rmOperand
  rw [resolve_map]
  split
  · rfl
  cases t.resolve cwd w with
  | none => rfl
  | some p =>
    dsimp only
    rw [isDir_map, names_map]
    split
    · split
      · exact map_removeTree ..
      · rfl
    · exact map_remove ..

theorem map_foldl_rmOperand (φ : α → β) (now : ℕ) (o : RmOptions) (cwd : Path) : ∀ (ws : List Text) (t : Tree Name α),
    (ws.foldl (fun t w => t.rmOperand now o cwd w) t).map φ =
      ws.foldl (fun t w => t.rmOperand now o cwd w) (t.map φ)
  | [], _ => rfl
  | w :: ws, t => by
    rw [List.foldl_cons, List.foldl_cons, map_foldl_rmOperand φ now o cwd ws, map_rmOperand]

theorem map_prune (φ : α → β) (t : Tree Name α) (now : ℕ) (cwd d : Path) (pre : Text) (k : ℕ) :
    (t.prune now cwd d pre k).map φ = (t.map φ).prune now cwd d pre k := by
  unfold prune
  rw [glob_map, lsNewest_map]
  cases xargs (dropLines k (t.lsNewest d (t.glob d pre))) with
  | nil => rfl
  | cons w ws =>
    dsimp only [rm]
    cases rmOptions .force (w :: ws) with
    | none => rfl
    | some oa =>
      obtain ⟨o, args⟩ := oa
      dsimp only
      split
      · rfl
      · exact map_foldl_rmOperand φ now o cwd args t

end Tree

/-! ### Redirections and compression -/

/-- A map of contents that a redirection cannot tell from none. -/
structure ContentHom [Content α] [Content β] (φ : α → β) : Prop where
  append (a b : α) : φ (a ++ b) = φ a ++ φ b
  size (a : α) : Content.size (φ a) = Content.size a
  block (k : ℕ) (t : Text) : φ (Content.block k t) = Content.block k t

namespace Tree

variable [Content α] [Content β] {φ : α → β}

theorem size_map (h : ContentHom φ) (f : File α) : (f.map φ).size = f.size := h.size f.data

theorem map_appendTo (h : ContentHom φ) (t : Tree Name α) (now : ℕ) (p : Path) (a : α) :
    (t.appendTo now p a).map φ = (t.map φ).appendTo now p (φ a) := by
  unfold appendTo
  rw [file?_map, h.size]
  cases t.file? p with
  | none => exact map_write ..
  | some f =>
    simp only [Option.map_some]
    split
    · rfl
    · rw [map_write, File.map, File.map, h.append]

theorem map_gzipLarge (h : ContentHom φ) (t : Tree Name α) (now : ℕ) (dir : Path) :
    (t.gzipLarge now dir).map φ = (t.map φ).gzipLarge now dir := by
  have hlarge : ∀ (p : Path) (f : File α), largeLog p (f.map φ) = largeLog p f := fun p f => by
    simp only [largeLog, largerThan100M, size_map h]
  rw [gzipLarge, gzipLarge, map_gzipAll, find_map φ t dir largeLog largeLog hlarge]

theorem map_findGzip (h : ContentHom φ) (t : Tree Name α) (now : ℕ) (dir log : Path) (a : α) :
    (t.findGzip now dir log a).map φ = (t.map φ).findGzip now dir log (φ a) := by
  unfold findGzip
  rw [writable_map, file?_map, ← map_gzipLarge h, file?_map, Option.isSome_map, Option.isNone_map]
  split
  · split
    · rfl
    · exact map_appendTo h ..
  · rfl

end Tree

end OpsScripts
