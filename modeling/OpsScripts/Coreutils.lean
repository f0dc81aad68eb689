/-
# The file tools on a tree

Redirection with `>>`, `find ... -delete`, `find ... -exec gzip {} \;` and
`mv` of a regular file, on trees whose names are texts. Contents are any
type a redirection can append text to (`Content`): the text itself, or the
list of the blocks that were appended.

A file written by `gzip` is represented by the contents it expands to: the
tools here look at the size of `.log` files only, never at that of a `.gz`.

Each tool has one equation that says which file stands at every path after
it (`file?_appendTo_ne`, `file?_findDelete`, `gzipLarge_spec`, `file?_mvFile`).
None of them makes or removes a directory.
-/
import OpsScripts.FileTree
import OpsScripts.Calendar

namespace OpsScripts

/-- A file name. -/
abbrev Name := Text

/-- A path, the last name first. -/
abbrev Path := List Name

/-- A path as it is written on a command line. -/
def pathText (p : Path) : Text := p.reverse.flatMap ('/' :: ·)

theorem pathText_cons (x : Name) (d : Path) : pathText (x :: d) = pathText d ++ '/' :: x := by
  simp [pathText]

/-- What a redirection needs of a file's contents: their size in bytes, what
the text printed by the `k`-th command amounts to, and appending it. -/
class Content (α : Type) extends Append α where
  size : α → ℕ
  block : ℕ → Text → α

instance : Content Text where
  size := byteSize
  block _ t := t

/-- Appending adds up the sizes, and what a command prints has its size. -/
class LawfulContent (α : Type) [Content α] : Prop where
  size_append (a b : α) : Content.size (a ++ b) = Content.size a + Content.size b
  size_block (k : ℕ) (t : Text) : Content.size (Content.block k t : α) = byteSize t

instance : LawfulContent Text where
  size_append := byteSize_append
  size_block _ _ := rfl

/-- The size of a file in bytes: `stat -c %s`. -/
def File.size {α : Type} [Content α] (f : File α) : ℕ := Content.size f.data

namespace Tree

variable {α : Type}

theorem writable_of_file? {t : Tree Name α} {p : Path} {f : File α} (h : t.file? p = some f) :
    t.writable p = true := by
  unfold writable
  rw [isDir_of_file? h]
  cases p with
  | nil => rw [file?_of_isDir t.isDir_nil] at h; cases h
  | cons x d =>
    have hx : x ∈ t.names d := (t.mem_names d x).mpr (Or.inl (by simp [h]))
    simpa using isDir_of_mem_names hx

/-! ### `find` -/

/-- `find dir -type f ...`: the regular files at or below `dir` that pass the
tests. -/
def find (t : Tree Name α) (dir : Path) (test : Path → File α → Bool) : List Path :=
  t.paths.filter fun p => decide (dir <:+ p) && (t.file? p).any (test p)

theorem mem_find (t : Tree Name α) (dir : Path) (test : Path → File α → Bool) (p : Path) :
    p ∈ t.find dir test ↔ dir <:+ p ∧ ∃ f, t.file? p = some f ∧ test p f = true := by
  rw [find, List.mem_filter, mem_paths, node?_isSome]
  constructor
  · rintro ⟨-, h⟩
    simpa [Option.any_eq_true] using h
  · rintro ⟨hd, f, hf, ht⟩
    exact ⟨Or.inl (by simp [hf]), by simp [hd, hf, ht]⟩

theorem find_nodup (t : Tree Name α) (dir : Path) (test : Path → File α → Bool) :
    (t.find dir test).Nodup :=
  t.nodes.keys_nodup.filter _

/-- `-name "*suf"`: the last name ends in `suf`. -/
def hasSuffix (suf : Text) : Path → Bool
  | [] => false
  | x :: _ => decide (suf <:+ x)

/-- `-mtime +days`: the age in whole days is more than `days`. -/
def olderThan (days now : ℕ) (f : File α) : Bool := decide (days < (now - f.mtime) / day)

/-- The files unlinked one after another. -/
def removeAll (t : Tree Name α) (now : ℕ) (ps : List Path) : Tree Name α :=
  ps.foldl (fun t p => t.remove now p) t

theorem file?_removeAll (now : ℕ) : ∀ (ps : List Path) (t : Tree Name α) (q : Path),
    (t.removeAll now ps).file? q = if q ∈ ps then none else t.file? q
  | [], t, q => by simp [removeAll]
  | p :: ps, t, q => by
    have ih := file?_removeAll now ps (t.remove now p) q
    simp only [removeAll, List.foldl_cons] at ih ⊢
    rw [ih, file?_remove]
    by_cases hq : q = p
    · simp [hq]
    · simp [hq]

@[simp] theorem isDir_removeAll (now : ℕ) : ∀ (ps : List Path) (t : Tree Name α) (q : Path),
    (t.removeAll now ps).isDir q = t.isDir q
  | [], _, _ => rfl
  | p :: ps, t, q => by
    have ih := isDir_removeAll now ps (t.remove now p) q
    simp only [removeAll, List.foldl_cons] at ih ⊢
    rw [ih, isDir_remove]

/-- What `find dir -name "*suf" -type f -mtime +days` selects. -/
def aged (dir : Path) (suf : Text) (days now : ℕ) (p : Path) (f : File α) : Bool :=
  decide (dir <:+ p) && hasSuffix suf p && olderThan days now f

/-- `find dir -name "*suf" -type f -mtime +days -delete`. -/
def findDelete (t : Tree Name α) (now : ℕ) (dir : Path) (suf : Text) (days : ℕ) : Tree Name α :=
  t.removeAll now (t.find dir fun p f => hasSuffix suf p && olderThan days now f)

/-- The age deletion removes the files it selects and no other. -/
theorem file?_findDelete (t : Tree Name α) (now : ℕ) (dir : Path) (suf : Text) (days : ℕ) (q : Path) :
    (t.findDelete now dir suf days).file? q =
      (t.file? q).filter fun f => !aged dir suf days now q f := by
  rw [findDelete, file?_removeAll]
  cases hf : t.file? q with
  | none => simp
  | some f =>
    by_cases ha : aged dir suf days now q f = true
    · have : q ∈ t.find dir fun p f => hasSuffix suf p && olderThan days now f := by
        rw [mem_find]
        simp only [aged, Bool.and_eq_true, decide_eq_true_eq] at ha
        exact ⟨ha.1.1, f, hf, by simp [ha.1.2, ha.2]⟩
      simp [Option.filter, this, ha]
    · have : q ∉ t.find dir fun p f => hasSuffix suf p && olderThan days now f := by
        rw [mem_find]
        rintro ⟨hd, g, hg, ht⟩
        rw [hf, Option.some.injEq] at hg
        subst hg
        exact ha (by simpa [aged, and_assoc] using ⟨hd, by simpa using ht⟩)
      simp [Option.filter, this, ha]

@[simp] theorem isDir_findDelete (t : Tree Name α) (now : ℕ) (dir : Path) (suf : Text) (days : ℕ)
    (q : Path) : (t.findDelete now dir suf days).isDir q = t.isDir q :=
  isDir_removeAll ..

/-! ### `gzip` -/

/-- The path `gzip` writes to. -/
def gzPath : Path → Path
  | [] => []
  | x :: d => (x ++ ".gz".toList) :: d

/-- `gzip p`, with no terminal to ask: an existing `p.gz` is not overwritten,
and then `p` stays. Contents and time go over to `p.gz`. -/
def gzip (t : Tree Name α) (now : ℕ) (p : Path) : Tree Name α :=
  match t.file? p with
  | none => t
  | some f => if (t.node? (gzPath p)).isSome then t else (t.write now (gzPath p) f).remove now p

/-- `gzip` would compress `p`: it is a file and `p.gz` is free. -/
def compressible (t : Tree Name α) (p : Path) : Bool :=
  (t.file? p).isSome && !(t.node? (gzPath p)).isSome

theorem gzPath_ne (p : Path) (h : p ≠ []) : gzPath p ≠ p := by
  cases p with
  | nil => exact absurd rfl h
  | cons x d =>
    intro e
    have := congrArg List.length (List.cons.inj e).1
    simp at this

theorem gzPath_inj {p q : Path} (h : gzPath p = gzPath q) : p = q := by
  rcases p with _ | ⟨x, d⟩ <;> rcases q with _ | ⟨y, e⟩ <;> simp_all [gzPath]

/-- A name that ends in `.log` does not end in `.gz`. -/
theorem hasSuffix_log_gzPath (p : Path) : hasSuffix ".log".toList (gzPath p) = false := by
  cases p with
  | nil => rfl
  | cons x d =>
    simp only [gzPath, hasSuffix, decide_eq_false_iff_not]
    rintro ⟨y, hy⟩
    have := congrArg List.getLast? hy
    simp at this

theorem writable_gzPath {t : Tree Name α} {p : Path} (h : t.compressible p = true) :
    t.writable (gzPath p) = true := by
  simp only [compressible, Bool.and_eq_true, Bool.not_eq_true', Option.isSome_eq_false_iff,
    Option.isNone_iff_eq_none] at h
  obtain ⟨f, hf⟩ := Option.isSome_iff_exists.mp h.1
  have hw := writable_of_file? hf
  cases p with
  | nil => rw [file?_of_isDir t.isDir_nil] at hf; cases hf
  | cons x d =>
    simp only [gzPath] at h ⊢
    unfold writable at hw ⊢
    have hnd : t.isDir ((x ++ ".gz".toList) :: d) = false := by simp only [isDir, h.2]
    rw [hnd]
    simpa using (Bool.and_eq_true _ _ ▸ hw).2

/-- `gzip` moves the file of a compressible path to its `.gz`. -/
theorem file?_gzip (t : Tree Name α) (now : ℕ) (p q : Path) :
    (t.gzip now p).file? q =
      if t.compressible p = true then
        if q = p then none else if q = gzPath p then t.file? p else t.file? q
      else t.file? q := by
  unfold gzip
  cases hf : t.file? p with
  | none => simp [compressible, hf]
  | some f =>
    by_cases hg : (t.node? (gzPath p)).isSome = true
    · simp [compressible, hg]
    · have hc : t.compressible p = true := by simp [compressible, hf, hg]
      simp only [if_neg hg, if_pos hc, file?_remove, file?_write, writable_gzPath hc, and_true]

@[simp] theorem isDir_gzip (t : Tree Name α) (now : ℕ) (p q : Path) :
    (t.gzip now p).isDir q = t.isDir q := by
  unfold gzip
  split
  · rfl
  · split
    · rfl
    · simp

/-- The files compressed one after another. -/
def gzipAll (t : Tree Name α) (now : ℕ) (ps : List Path) : Tree Name α :=
  ps.foldl (fun t p => t.gzip now p) t

@[simp] theorem isDir_gzipAll (now : ℕ) : ∀ (ps : List Path) (t : Tree Name α) (q : Path),
    (t.gzipAll now ps).isDir q = t.isDir q
  | [], _, _ => rfl
  | p :: ps, t, q => by
    have ih := isDir_gzipAll now ps (t.gzip now p) q
    simp only [gzipAll, List.foldl_cons] at ih ⊢
    rw [ih, isDir_gzip]

/-- Compressing one `.log` does not change whether another can be. -/
theorem compressible_gzip {t : Tree Name α} {now : ℕ} {p q : Path}
    (hp : hasSuffix ".log".toList p = true) (hq : hasSuffix ".log".toList q = true) (hne : q ≠ p) :
    (t.gzip now p).compressible q = t.compressible q := by
  have hqg : q ≠ gzPath p := fun e => by rw [e, hasSuffix_log_gzPath] at hq; cases hq
  have hgp : gzPath q ≠ p := fun e => by rw [← e, hasSuffix_log_gzPath] at hp; cases hp
  have hgg : gzPath q ≠ gzPath p := fun e => hne (gzPath_inj e)
  have h1 : (t.gzip now p).file? q = t.file? q := by simp [file?_gzip, hne, hqg]
  have h2 : ((t.gzip now p).node? (gzPath q)).isSome = (t.node? (gzPath q)).isSome := by
    rw [Bool.eq_iff_iff, node?_isSome, node?_isSome, isDir_gzip, file?_gzip]
    simp [hgp, hgg]
  simp only [compressible, h1, h2]

/-- Compressing `.log` files: each compressible one moves to its `.gz`. -/
theorem file?_gzipAll (now : ℕ) : ∀ (ps : List Path) (t : Tree Name α), ps.Nodup →
    (∀ p ∈ ps, hasSuffix ".log".toList p = true) → ∀ q : Path,
    ((q ∈ ps ∧ t.compressible q = true) → (t.gzipAll now ps).file? q = none) ∧
    (∀ p ∈ ps, t.compressible p = true → q = gzPath p → (t.gzipAll now ps).file? q = t.file? p) ∧
    (¬ (q ∈ ps ∧ t.compressible q = true) → (∀ p ∈ ps, t.compressible p = true → q ≠ gzPath p) →
      (t.gzipAll now ps).file? q = t.file? q)
  | [], t, _, _, q => by simp [gzipAll]
  | p :: ps, t, hnd, hlog, q => by
    have hp := hlog p List.mem_cons_self
    have hps : ∀ r ∈ ps, hasSuffix ".log".toList r = true :=
      fun r hr => hlog r (List.mem_cons_of_mem _ hr)
    obtain ⟨hpn, hnd'⟩ := List.nodup_cons.mp hnd
    have hne : ∀ r ∈ ps, r ≠ p := fun r hr e => hpn (e ▸ hr)
    have hcomp : ∀ r ∈ ps, (t.gzip now p).compressible r = t.compressible r :=
      fun r hr => compressible_gzip hp (hps r hr) (hne r hr)
    have hfile : ∀ r ∈ ps, (t.gzip now p).file? r = t.file? r := fun r hr => by
      have : r ≠ gzPath p := fun e => by
        have := hps r hr
        rw [e, hasSuffix_log_gzPath] at this; cases this
      simp [file?_gzip, hne r hr, this]
    have hgp : ∀ r, gzPath r ≠ p := fun r e => by rw [← e, hasSuffix_log_gzPath] at hp; cases hp
    obtain ⟨ih1, ih2, ih3⟩ := file?_gzipAll now ps (t.gzip now p) hnd' hps q
    have hfold : t.gzipAll now (p :: ps) = (t.gzip now p).gzipAll now ps := rfl
    rw [hfold]
    refine ⟨?_, ?_, ?_⟩
    · rintro ⟨hq, hc⟩
      rcases List.mem_cons.mp hq with rfl | hq
      · -- `p` itself: gone after its own step, and no later step brings it back
        rw [ih3 (fun h => hpn h.1) fun r _ _ e => hgp r e.symm, file?_gzip, if_pos hc, if_pos rfl]
      · exact ih1 ⟨hq, by rw [hcomp q hq]; exact hc⟩
    · rintro r hr hc rfl
      rcases List.mem_cons.mp hr with rfl | hr
      · rw [ih3, file?_gzip, if_pos hc, if_neg (hgp r), if_pos rfl]
        · rintro ⟨hq, -⟩
          have := hps _ hq
          rw [hasSuffix_log_gzPath] at this; cases this
        · exact fun s hs _ e => hne s hs (gzPath_inj e).symm
      · rw [ih2 r hr (by rw [hcomp r hr]; exact hc) rfl, hfile r hr]
    · intro hq hg
      have hq' : q ∈ ps → t.compressible q = false := fun h => by
        rw [Bool.eq_false_iff]
        exact fun hc => hq ⟨List.mem_cons_of_mem _ h, hc⟩
      rw [ih3, file?_gzip]
      · by_cases hc : t.compressible p = true
        · have hqp : q ≠ p := by
            rintro rfl
            exact hq ⟨List.mem_cons_self, hc⟩
          rw [if_pos hc, if_neg hqp, if_neg (hg p List.mem_cons_self hc)]
        · rw [if_neg hc]
      · rintro ⟨h, hc⟩
        rw [hcomp q h, hq' h] at hc; cases hc
      · exact fun r hr hc => hg r (List.mem_cons_of_mem _ hr) (by rw [← hcomp r hr]; exact hc)

/-! ### `mv` -/

/-- Where `mv src dst` puts the file: in `dst` if that is a directory. -/
def mvTarget (t : Tree Name α) (src dst : Path) : Path :=
  match src with
  | [] => dst
  | x :: _ => if t.isDir dst then x :: dst else dst

/-- `mv src dst` for a regular file `src`. An existing file at the target is
replaced. -/
def mvFile (t : Tree Name α) (now : ℕ) (src dst : Path) : Tree Name α :=
  match t.file? src with
  | none => t
  | some f =>
    if t.writable (t.mvTarget src dst) then (t.write now (t.mvTarget src dst) f).remove now src
    else t

@[simp] theorem isDir_mvFile (t : Tree Name α) (now : ℕ) (src dst q : Path) :
    (t.mvFile now src dst).isDir q = t.isDir q := by
  unfold mvFile
  split
  · rfl
  · split
    · simp
    · rfl

/-- A rename next to the source: the file stands at the target, not at the
source, and nothing else changed. -/
theorem file?_mvFile {t : Tree Name α} (now : ℕ) {x y : Name} {d : Path} {f : File α}
    (hf : t.file? (x :: d) = some f) (hd : t.isDir (y :: d) = false) (q : Path) :
    (t.mvFile now (x :: d) (y :: d)).file? q =
      if q = x :: d then none else if q = y :: d then some f else t.file? q := by
  have htgt : t.mvTarget (x :: d) (y :: d) = y :: d := by simp [mvTarget, hd]
  have hpar : t.isDir d = true :=
    isDir_of_mem_names ((t.mem_names d x).mpr (Or.inl (by simp [hf])))
  have hw : t.writable (y :: d) = true := by unfold writable; simp [hd, hpar]
  unfold mvFile
  rw [hf]
  simp only [htgt, hw, if_true, file?_remove, file?_write, and_true]

theorem mvFile_of_none {t : Tree Name α} {now : ℕ} {src dst : Path} (h : t.file? src = none) :
    t.mvFile now src dst = t := by
  unfold mvFile
  rw [h]

/-- Away from source and target nothing changes. -/
theorem file?_mvFile_ne {t : Tree Name α} {now : ℕ} {src dst q : Path} (hs : q ≠ src)
    (ht : q ≠ t.mvTarget src dst) : (t.mvFile now src dst).file? q = t.file? q := by
  unfold mvFile
  split
  · rfl
  · split
    · rw [file?_remove, if_neg hs, file?_write, if_neg fun h => ht h.1]
    · rfl

/-- Whatever the target is: a file after a rename was there, or it is the
renamed one. -/
theorem file?_of_mvFile {t : Tree Name α} {now : ℕ} {src dst q : Path} {g : File α}
    (h : (t.mvFile now src dst).file? q = some g) :
    t.file? q = some g ∨ (q = t.mvTarget src dst ∧ t.file? src = some g) := by
  unfold mvFile at h
  cases hf : t.file? src with
  | none => rw [hf] at h; exact Or.inl h
  | some f =>
    rw [hf] at h
    dsimp only at h
    split at h
    · rw [file?_remove] at h
      split at h
      · cases h
      · rw [file?_write] at h
        split at h
        · rename_i hq
          exact Or.inr ⟨hq.1, h⟩
        · exact Or.inl h
    · exact Or.inl h

section Content

variable [Content α]

/-! ### `>> p` -/

/-- `command >> p` where the command prints `a`. A missing file is created
even if nothing is printed; a file nothing is appended to keeps its time. -/
def appendTo (t : Tree Name α) (now : ℕ) (p : Path) (a : α) : Tree Name α :=
  match t.file? p with
  | some f => if Content.size a = 0 then t else t.write now p ⟨f.data ++ a, now⟩
  | none => t.write now p ⟨a, now⟩

theorem file?_appendTo_ne (t : Tree Name α) (now : ℕ) (p : Path) (a : α) {q : Path} (h : q ≠ p) :
    (t.appendTo now p a).file? q = t.file? q := by
  unfold appendTo
  split
  · split
    · rfl
    · simp [file?_write, h]
  · simp [file?_write, h]

@[simp] theorem isDir_appendTo (t : Tree Name α) (now : ℕ) (p : Path) (a : α) (q : Path) :
    (t.appendTo now p a).isDir q = t.isDir q := by
  unfold appendTo
  split
  · split
    · rfl
    · simp
  · simp

/-- Appending to a file: the text goes to its end, at the time of writing. -/
theorem file?_appendTo_self {t : Tree Name α} {now : ℕ} {p : Path} {a : α} {f : File α}
    (h : t.file? p = some f) :
    (t.appendTo now p a).file? p = some (if Content.size a = 0 then f else ⟨f.data ++ a, now⟩) := by
  unfold appendTo
  rw [h]
  simp only
  split
  · exact h
  · simp [file?_write, writable_of_file? h]

/-- Appending to a missing file creates it where a file can stand. -/
theorem file?_appendTo_none {t : Tree Name α} {now : ℕ} {p : Path} {a : α}
    (h : t.file? p = none) :
    (t.appendTo now p a).file? p = if t.writable p = true then some ⟨a, now⟩ else none := by
  unfold appendTo
  rw [h]
  by_cases hw : t.writable p = true
  · simp [file?_write, hw]
  · simp [file?_write, hw, h]

/-- Appending to `q` keeps the file at `p`, with more contents if it is `q`. -/
theorem appendTo_keeps {t : Tree Name α} (now : ℕ) (q : Path) (a : α) {p : Path} {f : File α} (h : t.file? p = some f) :
    ∃ g, (t.appendTo now q a).file? p = some g ∧ (g = f ∨ (p = q ∧ g.data = f.data ++ a)) := by
  by_cases hp : p = q
  · subst hp
    refine ⟨_, file?_appendTo_self h, ?_⟩
    split
    · exact Or.inl rfl
    · exact Or.inr ⟨rfl, rfl⟩
  · exact ⟨f, by rw [file?_appendTo_ne _ _ _ _ hp, h], Or.inl rfl⟩

/-! ### Compressing what is large -/

/-- `-size +100M`: the size in MiB, rounded up, is more than 100. -/
def largerThan100M (f : File α) : Bool := decide (100 < (f.size + 1048575) / 1048576)

theorem largerThan100M_iff (f : File α) : largerThan100M f = true ↔ 104857600 < f.size := by
  simp only [largerThan100M, decide_eq_true_eq]
  omega

/-- What `find dir -name "*.log" -type f -size +100M -not -name "*.gz"` selects. -/
def largeLog (p : Path) (f : File α) : Bool :=
  hasSuffix ".log".toList p && largerThan100M f && !hasSuffix ".gz".toList p

/-- `find dir -name "*.log" -type f -size +100M -not -name "*.gz" -exec gzip {} \;`. -/
def gzipLarge (t : Tree Name α) (now : ℕ) (dir : Path) : Tree Name α :=
  t.gzipAll now (t.find dir largeLog)

/-- The same with `>> log 2>&1` and the messages `a`. Nothing runs if `log`
cannot be opened. If `log` is itself compressed, the messages go to the file
that is gone. -/
def findGzip (t : Tree Name α) (now : ℕ) (dir log : Path) (a : α) : Tree Name α :=
  if t.writable log then
    if (t.file? log).isSome && ((t.gzipLarge now dir).file? log).isNone then t.gzipLarge now dir
    else (t.gzipLarge now dir).appendTo now log a
  else t

/-- The large logs at or below `dir` that `gzip` compresses. -/
def compresses (t : Tree Name α) (dir p : Path) : Prop :=
  p ∈ t.find dir largeLog ∧ t.compressible p = true

theorem hasSuffix_of_compresses {t : Tree Name α} {dir p : Path} (h : t.compresses dir p) :
    hasSuffix ".log".toList p = true := by
  obtain ⟨-, f, -, hl⟩ := (mem_find ..).mp h.1
  simp only [largeLog, Bool.and_eq_true] at hl
  exact hl.1.1

theorem gzipLarge_spec (t : Tree Name α) (now : ℕ) (dir q : Path) :
    (t.compresses dir q → (t.gzipLarge now dir).file? q = none) ∧
    (∀ p, t.compresses dir p → q = gzPath p → (t.gzipLarge now dir).file? q = t.file? p) ∧
    (¬ t.compresses dir q → (∀ p, t.compresses dir p → q ≠ gzPath p) →
      (t.gzipLarge now dir).file? q = t.file? q) := by
  have hlog : ∀ p ∈ t.find dir largeLog, hasSuffix ".log".toList p = true := fun p hp => by
    obtain ⟨-, f, -, hl⟩ := (mem_find ..).mp hp
    simp only [largeLog, Bool.and_eq_true] at hl
    exact hl.1.1
  obtain ⟨h1, h2, h3⟩ := file?_gzipAll now _ t (find_nodup t dir largeLog) hlog q
  exact ⟨h1, fun p hp => h2 p hp.1 hp.2, fun hq hp => h3 hq fun p hm hc => hp p ⟨hm, hc⟩⟩

/-- A file after the compression was there, or it is a compressed one. -/
theorem file?_of_gzipLarge {t : Tree Name α} {now : ℕ} {dir q : Path} {g : File α}
    (h : (t.gzipLarge now dir).file? q = some g) :
    t.file? q = some g ∨ ∃ p, t.compresses dir p ∧ q = gzPath p ∧ t.file? p = some g := by
  obtain ⟨h1, h2, h3⟩ := gzipLarge_spec t now dir q
  by_cases hq : t.compresses dir q
  · rw [h1 hq] at h
    cases h
  by_cases hp : ∃ p, t.compresses dir p ∧ q = gzPath p
  · obtain ⟨p, hp, hqp⟩ := hp
    exact Or.inr ⟨p, hp, hqp, by rw [← h2 p hp hqp]; exact h⟩
  · refine Or.inl ?_
    rw [← h3 hq fun p hc e => hp ⟨p, hc, e⟩]
    exact h

/-- Compression leaves a file or moves it to its `.gz`. -/
theorem gzipLarge_keeps {t : Tree Name α} (now : ℕ) (dir : Path) {p : Path} {f : File α} (h : t.file? p = some f) :
    (t.gzipLarge now dir).file? p = some f ∨
      (dir <:+ p ∧ hasSuffix ".log".toList p = true ∧ 100 * 1048576 < f.size ∧
        (t.gzipLarge now dir).file? (gzPath p) = some f ∧ (t.gzipLarge now dir).file? p = none) := by
  by_cases hc : t.compresses dir p
  · obtain ⟨hd, g, hg, hl⟩ := (mem_find ..).mp hc.1
    obtain rfl : g = f := Option.some.inj (hg.symm.trans h)
    simp only [largeLog, Bool.and_eq_true] at hl
    refine Or.inr ⟨hd, hl.1.1, (largerThan100M_iff g).mp hl.1.2, ?_, (gzipLarge_spec t now dir p).1 hc⟩
    rw [(gzipLarge_spec t now dir _).2.1 p hc rfl, h]
  · refine Or.inl ?_
    rw [(gzipLarge_spec t now dir p).2.2 hc, h]
    -- a name that is taken is not compressed to
    rintro q hq rfl
    have hfree := hq.2
    simp only [compressible, Bool.and_eq_true, Bool.not_eq_true'] at hfree
    rw [(file?_eq_some ..).mp h] at hfree
    cases hfree.2

@[simp] theorem isDir_gzipLarge (t : Tree Name α) (now : ℕ) (dir q : Path) :
    (t.gzipLarge now dir).isDir q = t.isDir q :=
  isDir_gzipAll ..

@[simp] theorem isDir_findGzip (t : Tree Name α) (now : ℕ) (dir log : Path) (a : α) (q : Path) :
    (t.findGzip now dir log a).isDir q = t.isDir q := by
  unfold findGzip
  split
  · split <;> simp
  · rfl

/-- Away from its log the command only compresses. -/
theorem file?_findGzip_ne (t : Tree Name α) (now : ℕ) (dir log : Path) (a : α) {q : Path}
    (h : q ≠ log) (hw : t.writable log = true) :
    (t.findGzip now dir log a).file? q = (t.gzipLarge now dir).file? q := by
  unfold findGzip
  rw [if_pos hw]
  split
  · rfl
  · exact file?_appendTo_ne _ _ _ _ h

/-- If the log itself is not compressed, the messages go to it. -/
theorem findGzip_eq_appendTo {t : Tree Name α} (now : ℕ) {dir log : Path} (a : α)
    (hlog : hasSuffix ".log".toList log = true) (hw : t.writable log = true) (h : ¬ t.compresses dir log) :
    t.findGzip now dir log a = (t.gzipLarge now dir).appendTo now log a := by
  have hsame : (t.gzipLarge now dir).file? log = t.file? log := by
    refine (gzipLarge_spec t now dir log).2.2 h fun p _ e => ?_
    rw [e, hasSuffix_log_gzPath] at hlog
    cases hlog
  unfold findGzip
  rw [if_pos hw, hsame, if_neg]
  cases t.file? log <;> simp

/-- The command leaves a file, appends its messages to it, or moves it to its
`.gz`. -/
theorem findGzip_keeps {t : Tree Name α} (now : ℕ) (dir : Path) {p log : Path} (a : α) {f : File α}
    (hlog : hasSuffix ".log".toList log = true) (h : t.file? p = some f) :
    (∃ g, (t.findGzip now dir log a).file? p = some g ∧ (g = f ∨ (p = log ∧ g.data = f.data ++ a))) ∨
      (dir <:+ p ∧ hasSuffix ".log".toList p = true ∧ 100 * 1048576 < f.size ∧
        (t.findGzip now dir log a).file? (gzPath p) = some f ∧
        (p ≠ log → (t.findGzip now dir log a).file? p = none)) := by
  have hgz : gzPath p ≠ log := fun e => by rw [← e, hasSuffix_log_gzPath] at hlog; cases hlog
  unfold findGzip
  split
  case isFalse hw => exact Or.inl ⟨f, h, Or.inl rfl⟩
  case isTrue hw =>
  split
  case isTrue hgone =>
    -- the log itself is compressed, and what is printed is lost
    exact (gzipLarge_keeps now dir h).imp (fun hk => ⟨f, hk, Or.inl rfl⟩)
      fun ⟨hp, hn, hs, hg, hnone⟩ => ⟨hp, hn, hs, hg, fun _ => hnone⟩
  case isFalse hgone =>
    rcases gzipLarge_keeps now dir h with hk | ⟨hp, hn, hs, hg, hnone⟩
    · exact Or.inl (appendTo_keeps now log a hk)
    · refine Or.inr ⟨hp, hn, hs, ?_, fun hne => ?_⟩
      · rw [file?_appendTo_ne _ _ _ _ hgz, hg]
      · rw [file?_appendTo_ne _ _ _ _ hne, hnone]

end Content

end Tree

end OpsScripts
