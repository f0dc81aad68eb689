/-
# `ls -t dir/pre* | tail -n +(k+1) | xargs -r rm -f`

The pipeline hands file names from one program to the next as text. `ls -t`
writes one name a line, newest first, and the entries of every directory
among its arguments; `tail` counts lines; `xargs` splits the text at blanks
and newlines and takes quotes and backslashes away; `rm` reads words that
start with `-` as options and every other word as a path from its working
directory.

On names that are plain (`Plain`: no blank, newline, quote or backslash) and
belong to regular files the text is read back as the names that were listed
(`xargs_unlines`), and the pipeline unlinks exactly the files past the `k`
newest (`prune_eq_removeAll`). On other names it does what the text says.

Key definitions: `Tree.newest`, `Tree.lsNewest`, `xargs`, `rmOptions`,
`Tree.rm`, `Tree.prune`.
-/
import OpsScripts.Coreutils

namespace OpsScripts

/-! ### `xargs` -/

/-- What `xargs` is inside of: nothing special, a quotation, or the character
after a backslash. -/
inductive XargsState
  | plain
  | quote (q : Char)
  | backslash
  deriving DecidableEq

/-- The word read so far, if one was begun, as a list of words. -/
def emit : Option Text → List Text
  | none => []
  | some w => [w.reverse]

/-- White space other than blanks and newlines; skipped before a word. -/
def isOtherSpace (c : Char) : Bool := c = '\x0b' || c = '\x0c' || c = '\r'

/-- `xargs`'s reading of its input, the word so far being `w` (reversed). The
words before an unmatched quote still count. -/
def xargsFrom : XargsState → Option Text → Text → List Text
  | .plain, w, [] => emit w
  | .backslash, w, [] => emit w
  | .quote _, _, [] => []
  | .plain, w, c :: t =>
    if c = '\n' || isBlank c then emit w ++ xargsFrom .plain none t
    else if c = '\\' then xargsFrom .backslash (some (w.getD [])) t
    else if c = '"' || c = '\'' then xargsFrom (.quote c) (some (w.getD [])) t
    else if w = none && isOtherSpace c then xargsFrom .plain none t
    else xargsFrom .plain (some (c :: w.getD [])) t
  | .backslash, w, c :: t => xargsFrom .plain (some (c :: w.getD [])) t
  | .quote q, w, c :: t =>
    if c = '\n' then []
    else if c = q then xargsFrom .plain w t
    else xargsFrom (.quote q) (some (c :: w.getD [])) t

/-- The arguments `xargs` makes of its input. -/
def xargs (t : Text) : List Text := xargsFrom .plain none t

/-- A character `xargs` passes on as it is. -/
def isPlainChar (c : Char) : Bool :=
  !(c = '\n' || isBlank c || c = '\\' || c = '"' || c = '\'')

/-- A name of plain characters only. -/
def Plain (x : Text) : Prop := ∀ c ∈ x, isPlainChar c = true

instance (x : Text) : Decidable (Plain x) := decidable_of_iff (x.all isPlainChar = true) List.all_eq_true

theorem xargsFrom_plain_cons (w : Option Text) (c : Char) (t : Text) (hc : isPlainChar c = true)
    (hs : w = none → isOtherSpace c = false) :
    xargsFrom .plain w (c :: t) = xargsFrom .plain (some (c :: w.getD [])) t := by
  simp only [isPlainChar, Bool.not_eq_true', Bool.or_eq_false_iff, decide_eq_false_iff_not] at hc
  obtain ⟨⟨⟨⟨h1, h2⟩, h3⟩, h4⟩, h5⟩ := hc
  have h6 : (decide (w = none) && isOtherSpace c) = false := by
    by_cases hw : w = none
    · simp [hs hw]
    · simp [hw]
  rw [xargsFrom]
  simp [h1, h2, h3, h4, h5, h6]

/-- The rest of a word that was begun. -/
theorem xargsFrom_word : ∀ (x acc : Text) (t : Text), Plain x →
    xargsFrom .plain (some acc) (x ++ '\n' :: t) = (acc.reverse ++ x) :: xargs t
  | [], acc, t, _ => by simp [xargsFrom, emit, xargs]
  | c :: x, acc, t, h => by
    rw [List.cons_append, xargsFrom_plain_cons _ _ _ (h c List.mem_cons_self) (by simp),
      Option.getD_some, xargsFrom_word x (c :: acc) t fun y hy => h y (List.mem_cons_of_mem _ hy)]
    simp

/-- **Plain lines are read back.** A word also has to start with something
other than white space. -/
theorem xargs_unlines : ∀ ls : List Text,
    (∀ l ∈ ls, Plain l ∧ ∃ c t, l = c :: t ∧ isOtherSpace c = false) → xargs (unlines ls) = ls
  | [], _ => rfl
  | l :: ls, h => by
    obtain ⟨hp, c, x, rfl, hc⟩ := h l List.mem_cons_self
    have ih := xargs_unlines ls fun y hy => h y (List.mem_cons_of_mem _ hy)
    rw [unlines_cons, xargs, List.cons_append,
      xargsFrom_plain_cons _ _ _ (hp c List.mem_cons_self) fun _ => hc,
      xargsFrom_word x _ _ fun y hy => hp y (List.mem_cons_of_mem _ hy), ih]
    rfl

theorem newline_notMem_of_plain {x : Text} (h : Plain x) : '\n' ∉ x := by
  intro hm
  have := h _ hm
  simp [isPlainChar] at this

/-! ### `rm` -/

/-- When `rm` asks before it removes. Nobody answers, so asking is refusing. -/
inductive RmAsk
  | never
  | once
  | always
  deriving DecidableEq

/-- The options of `rm` that change what is removed. -/
structure RmOptions where
  recursive : Bool
  dir : Bool
  ask : RmAsk
  deriving DecidableEq

/-- `rm -f`. -/
def RmOptions.force : RmOptions := ⟨false, false, .never⟩

/-- A cluster of one-letter options; `none` is a usage error. -/
def rmShort : RmOptions → Text → Option RmOptions
  | o, [] => some o
  | o, c :: t =>
    if c = 'f' then rmShort { o with ask := .never } t
    else if c = 'i' then rmShort { o with ask := .always } t
    else if c = 'I' then rmShort { o with ask := .once } t
    else if c = 'r' || c = 'R' then rmShort { o with recursive := true } t
    else if c = 'd' then rmShort { o with dir := true } t
    else if c = 'v' then rmShort o t
    else none

/-- The long options of `rm`. -/
def rmLongNames : List Text :=
  ["force", "interactive", "one-file-system", "no-preserve-root", "preserve-root", "recursive",
    "dir", "verbose", "help", "version"].map String.toList

/-- A long option in full: its name, or the one name it abbreviates. -/
def rmLongName (w : Text) : Option Text :=
  if w ∈ rmLongNames then some w
  else
    match rmLongNames.filter (w <+: ·) with
    | [x] => some x
    | _ => none

/-- A long option, without its two dashes. `--help` and `--version` remove
nothing, like a usage error. -/
def rmLong (o : RmOptions) (w : Text) : Option RmOptions :=
  let name := w.takeWhile (· ≠ '=')
  let value := (w.dropWhile (· ≠ '=')).tail
  let given := '=' ∈ w
  match rmLongName name with
  | none => none
  | some x =>
    if x = "interactive".toList then
      if !given || value = "always".toList || value = "yes".toList then some { o with ask := .always }
      else if value = "once".toList then some { o with ask := .once }
      else if value ∈ ["never", "no", "none"].map String.toList then some { o with ask := .never }
      else none
    else if x = "preserve-root".toList then
      if !given || value = "all".toList then some o else none
    else if given then none
    else if x = "force".toList then some { o with ask := .never }
    else if x = "recursive".toList then some { o with recursive := true }
    else if x = "dir".toList then some { o with dir := true }
    else if x = "help".toList || x = "version".toList then none
    else some o

/-- The words of a command line sorted into options and operands; options
count wherever they stand before `--`. -/
def rmOptions : RmOptions → List Text → Option (RmOptions × List Text)
  | o, [] => some (o, [])
  | o, w :: ws =>
    match w with
    | '-' :: '-' :: [] => some (o, ws)
    | '-' :: '-' :: l => (rmLong o l).bind fun o => rmOptions o ws
    | '-' :: c :: l => (rmShort o (c :: l)).bind fun o => rmOptions o ws
    | w => (rmOptions o ws).map fun r => (r.1, w :: r.2)

/-- Words that start with a slash are operands. -/
theorem rmOptions_absolute (o : RmOptions) : ∀ ws : List Text,
    (∀ w ∈ ws, ∃ t, w = '/' :: t) → rmOptions o ws = some (o, ws)
  | [], _ => rfl
  | w :: ws, h => by
    obtain ⟨t, rfl⟩ := h w List.mem_cons_self
    rw [rmOptions, rmOptions_absolute o ws fun x hx => h x (List.mem_cons_of_mem _ hx)]
    · rfl
    all_goals simp

/-- A name that a file system admits for an entry. -/
def Admitted (x : Name) : Prop := x ≠ [] ∧ x ≠ ".".toList ∧ x ≠ "..".toList ∧ '/' ∉ x

instance (x : Name) : Decidable (Admitted x) := by unfold Admitted; infer_instance

/-- The names of a path come back from its text. -/
theorem splitOn_pathText (p : Path) (h : ∀ x ∈ p, '/' ∉ x) :
    (pathText p).splitOn '/' = [] :: p.reverse := by
  have key : ∀ (ns : List Name) (x : Name), (∀ y ∈ x :: ns, '/' ∉ y) →
      (x ++ ns.flatMap ('/' :: ·)).splitOn '/' = x :: ns := by
    intro ns
    induction ns with
    | nil =>
      intro x hx
      simpa using List.splitOn_eq_singleton (hx x List.mem_cons_self)
    | cons y ns ih =>
      intro x hx
      have hsep : ∀ c ∈ x, (c == '/') = false := fun c hc => by
        simpa using fun e : c = '/' => hx x List.mem_cons_self (e ▸ hc)
      have := ih y fun z hz => hx z (List.mem_cons_of_mem _ hz)
      rw [List.splitOn_eq_splitOnP] at this ⊢
      rw [List.flatMap_cons, List.cons_append, List.splitOnP_append_cons_of_forall_mem hsep _ (by simp),
        this]
  have := key p.reverse [] (by simpa using h)
  simpa [pathText] using this

namespace Tree

variable {α : Type}

/-- One step of a path walk: every name but the last is looked up in a
directory. -/
def walk (t : Tree Name α) (p : Option Path) (x : Name) : Option Path :=
  p.bind fun p =>
    if t.isDir p then
      if x = [] || x = ".".toList then some p
      else if x = "..".toList then some p.tail
      else some (x :: p)
    else none

/-- The path a word names for a process that stands in `cwd`. -/
def resolve (t : Tree Name α) (cwd : Path) : Text → Option Path
  | [] => none
  | '/' :: w => (w.splitOn '/').foldl t.walk (some [])
  | w => (w.splitOn '/').foldl t.walk (some cwd)

/-- `rm` of one operand. A missing file is no error under `-f`; a directory
needs `-r`, or `-d` if it is empty; `.` and `..` are refused. -/
def rmOperand (t : Tree Name α) (now : ℕ) (o : RmOptions) (cwd : Path) (w : Text) : Tree Name α :=
  if ".".toList = (w.splitOn '/').getLastD [] ∨ "..".toList = (w.splitOn '/').getLastD [] then t
  else
    match t.resolve cwd w with
    | none => t
    | some p =>
      if t.isDir p then
        if o.recursive || (o.dir && t.names p = []) then t.removeTree now p else t
      else t.remove now p

/-- `rm -f w₁ ... wₙ` run in `cwd`. -/
def rm (t : Tree Name α) (now : ℕ) (cwd : Path) (ws : List Text) : Tree Name α :=
  match rmOptions .force ws with
  | none => t
  | some (o, args) =>
    if o.ask = .always ∨ (o.ask = .once ∧ (o.recursive = true ∨ 3 < args.length)) then t
    else args.foldl (fun t w => t.rmOperand now o cwd w) t

/-! ### `ls -t` -/

/-- The modification time of a path. -/
def mtime (t : Tree Name α) (p : Path) : ℕ := ((t.node? p).map Node.mtime).getD 0

/-- The order of `ls -t`: newest first, then by name. -/
def Newer (t : Tree Name α) (d : Path) (x y : Name) : Prop :=
  t.mtime (y :: d) < t.mtime (x :: d) ∨ (t.mtime (x :: d) = t.mtime (y :: d) ∧ x ≤ y)

instance (t : Tree Name α) (d : Path) : DecidableRel (t.Newer d) := fun _ _ => by
  unfold Newer; infer_instance

instance (t : Tree Name α) (d : Path) : Std.Total (t.Newer d) := ⟨fun x y => by
  unfold Newer
  rcases lt_trichotomy (t.mtime (x :: d)) (t.mtime (y :: d)) with h | h | h
  · exact Or.inr (Or.inl h)
  · rcases le_total x y with hn | hn
    · exact Or.inl (Or.inr ⟨h, hn⟩)
    · exact Or.inr (Or.inr ⟨h.symm, hn⟩)
  · exact Or.inl (Or.inl h)⟩

instance (t : Tree Name α) (d : Path) : IsTrans Name (t.Newer d) := ⟨fun x y z h1 h2 => by
  unfold Newer at *
  rcases h1 with h1 | ⟨h1, n1⟩ <;> rcases h2 with h2 | ⟨h2, n2⟩
  · exact Or.inl (h2.trans h1)
  · exact Or.inl (h2 ▸ h1)
  · exact Or.inl (h1 ▸ h2)
  · exact Or.inr ⟨h1.trans h2, n1.trans n2⟩⟩

/-- Names of entries of `d` in the order of `ls -t`. -/
def newest (t : Tree Name α) (d : Path) (xs : List Name) : List Name :=
  xs.insertionSort (t.Newer d)

theorem newest_perm (t : Tree Name α) (d : Path) (xs : List Name) : (t.newest d xs).Perm xs :=
  List.perm_insertionSort ..

theorem newest_pairwise (t : Tree Name α) (d : Path) (xs : List Name) :
    (t.newest d xs).Pairwise (t.Newer d) :=
  List.pairwise_insertionSort ..

@[simp] theorem mem_newest (t : Tree Name α) (d : Path) (xs : List Name) (x : Name) :
    x ∈ t.newest d xs ↔ x ∈ xs :=
  (t.newest_perm d xs).mem_iff

theorem newer_antisymm {t : Tree Name α} {d : Path} {x y : Name} (h : t.Newer d x y) (h' : t.Newer d y x) :
    x = y := by
  unfold Newer at h h'
  rcases h with h | ⟨e, h⟩
  · rcases h' with h' | ⟨e, -⟩ <;> omega
  · rcases h' with h' | ⟨-, h'⟩
    · omega
    · exact le_antisymm h h'

/-- The order depends on the names and their times only. -/
theorem newest_congr {t t' : Tree Name α} {d : Path} {xs ys : List Name} (hp : xs.Perm ys)
    (hm : ∀ x ∈ xs, t.mtime (x :: d) = t'.mtime (x :: d)) : t.newest d xs = t'.newest d ys := by
  have hperm : (t.newest d xs).Perm (t'.newest d ys) :=
    (t.newest_perm d xs).trans (hp.trans (t'.newest_perm d ys).symm)
  have hm' : ∀ x ∈ t'.newest d ys, t.mtime (x :: d) = t'.mtime (x :: d) :=
    fun x hx => hm x (hp.mem_iff.mpr ((t'.mem_newest d ys x).mp hx))
  have hsorted : (t'.newest d ys).Pairwise (t.Newer d) := by
    refine List.Pairwise.imp_of_mem ?_ (t'.newest_pairwise d ys)
    intro x y hx hy h
    unfold Newer at h ⊢
    rw [hm' x hx, hm' y hy]
    exact h
  exact hperm.eq_of_pairwise (fun _ _ _ _ => newer_antisymm) (t.newest_pairwise d xs) hsorted

/-- What `ls -t` prints for a directory: its entries, without the hidden
ones. -/
def lsEntries (t : Tree Name α) (d : Path) : Text :=
  unlines (t.newest d ((t.names d).filter fun x => ¬ ['.'] <+: x))

/-- `ls -t` of the entries `xs` of `d`: the regular files, then each directory
with its entries, under its name unless it is the only argument. -/
def lsNewest (t : Tree Name α) (d : Path) (xs : List Name) : Text :=
  let files := t.newest d (xs.filter fun x => !t.isDir (x :: d))
  let dirs := t.newest d (xs.filter fun x => t.isDir (x :: d))
  let title := fun x => if xs.length = 1 then [] else pathText (x :: d) ++ [':', '\n']
  unlines (files.map fun x => pathText (x :: d)) ++
    ((if files = [] ∨ dirs = [] then [] else ['\n']) ++
      ['\n'].intercalate (dirs.map fun x => title x ++ t.lsEntries (x :: d)))

/-- The entries of `d` that the pattern `d/pre*` matches. -/
def glob (t : Tree Name α) (d : Path) (pre : Text) : List Name :=
  (t.names d).filter fun x => pre <+: x

/-- `ls -t d/pre* 2>/dev/null | tail -n +(k+1) | xargs -r rm -f`, run in `cwd`. -/
def prune (t : Tree Name α) (now : ℕ) (cwd d : Path) (pre : Text) (k : ℕ) : Tree Name α :=
  match xargs (dropLines k (t.lsNewest d (t.glob d pre))) with
  | [] => t
  | w :: ws => t.rm now cwd (w :: ws)

/-! ### The pipeline on any names -/

/-- Nothing is in `t'` that is not in `t`. -/
structure Shrinks (t t' : Tree Name α) : Prop where
  file : ∀ p f, t'.file? p = some f → t.file? p = some f
  dir : ∀ p, t'.isDir p = true → t.isDir p = true

theorem Shrinks.refl (t : Tree Name α) : t.Shrinks t := ⟨fun _ _ h => h, fun _ h => h⟩

theorem Shrinks.trans {t t' t'' : Tree Name α} (h : t.Shrinks t') (h' : t'.Shrinks t'') : t.Shrinks t'' :=
  ⟨fun p f hf => h.file p f (h'.file p f hf), fun p hd => h.dir p (h'.dir p hd)⟩

theorem shrinks_remove (t : Tree Name α) (now : ℕ) (p : Path) : t.Shrinks (t.remove now p) := by
  refine ⟨fun q f h => ?_, fun q h => by simpa using h⟩
  rw [file?_remove] at h
  split at h
  · cases h
  · exact h

theorem isDir_of_isDir_removeTree {t : Tree Name α} {now : ℕ} {p q : Path}
    (h : (t.removeTree now p).isDir q = true) : t.isDir q = true := by
  unfold removeTree at h
  split at h
  · rw [isDir_touch, isDir, node?_eraseAll] at h
    split at h
    · rename_i n hn
      split at hn
      · cases hn
      · rw [isDir, hn]
        exact h
    · cases h
  · exact h

theorem shrinks_removeTree (t : Tree Name α) (now : ℕ) (p : Path) : t.Shrinks (t.removeTree now p) := by
  refine ⟨fun q f h => ?_, fun q h => isDir_of_isDir_removeTree h⟩
  rw [file?_removeTree] at h
  split at h
  · cases h
  · exact h

theorem shrinks_rmOperand (t : Tree Name α) (now : ℕ) (o : RmOptions) (cwd : Path) (w : Text) :
    t.Shrinks (t.rmOperand now o cwd w) := by
  unfold rmOperand
  split
  · exact .refl t
  · split
    · exact .refl t
    · split
      · split
        · exact shrinks_removeTree ..
        · exact .refl t
      · exact shrinks_remove ..

theorem shrinks_foldl_rmOperand (now : ℕ) (o : RmOptions) (cwd : Path) : ∀ (ws : List Text) (t : Tree Name α),
    t.Shrinks (ws.foldl (fun t w => t.rmOperand now o cwd w) t)
  | [], t => .refl t
  | w :: ws, t => (shrinks_rmOperand t now o cwd w).trans (shrinks_foldl_rmOperand now o cwd ws _)

/-- Whatever the names are, the pipeline only removes. -/
theorem shrinks_prune (t : Tree Name α) (now : ℕ) (cwd d : Path) (pre : Text) (k : ℕ) :
    t.Shrinks (t.prune now cwd d pre k) := by
  unfold prune
  split
  · exact .refl t
  · unfold rm
    split
    · exact .refl t
    · split
      · exact .refl t
      · exact shrinks_foldl_rmOperand ..

/-! ### The pipeline on plain names -/

/-- The entries past the `k` newest. -/
def overflow (t : Tree Name α) (d : Path) (pre : Text) (k : ℕ) : List Name :=
  (t.newest d (t.glob d pre)).drop k

theorem mem_glob (t : Tree Name α) (d : Path) (pre : Text) (x : Name) :
    x ∈ t.glob d pre ↔ x ∈ t.names d ∧ pre <+: x := by
  simp [glob]

theorem mem_glob_of_mem_overflow {t : Tree Name α} {d : Path} {pre : Text} {k : ℕ} {x : Name}
    (h : x ∈ t.overflow d pre k) : x ∈ t.glob d pre :=
  (t.mem_newest d _ x).mp (List.mem_of_mem_drop h)

/-- The names the pattern matches are regular files, none of them holds a
newline, and those past the `k` newest are plain. -/
structure Tidy (t : Tree Name α) (d : Path) (pre : Text) (k : ℕ) : Prop where
  file : ∀ x ∈ t.glob d pre, t.isDir (x :: d) = false
  line : ∀ x ∈ t.glob d pre, '\n' ∉ x
  plain : ∀ x ∈ t.overflow d pre k, Plain x

/-- On regular files `ls -t` prints one path a line. -/
theorem lsNewest_of_files {t : Tree Name α} {d : Path} {xs : List Name}
    (h : ∀ x ∈ xs, t.isDir (x :: d) = false) :
    t.lsNewest d xs = unlines ((t.newest d xs).map fun x => pathText (x :: d)) := by
  have h1 : xs.filter (fun x => !t.isDir (x :: d)) = xs :=
    List.filter_eq_self.mpr fun x hx => by simp [h x hx]
  have h2 : xs.filter (fun x => t.isDir (x :: d)) = [] :=
    List.filter_eq_nil_iff.mpr fun x hx => by simp [h x hx]
  have h3 : t.newest d [] = [] := rfl
  simp [lsNewest, h1, h2, h3]

theorem walk_admitted {t : Tree Name α} {d : Path} {x : Name} (hd : t.isDir d = true)
    (hx : Admitted x) : t.walk (some d) x = some (x :: d) := by
  obtain ⟨h1, h2, h3, -⟩ := hx
  simp only [String.reduceToList] at h2 h3
  simp [walk, hd, h1, h2, h3]

theorem foldl_walk {t : Tree Name α} : ∀ d : Path, t.isDir d = true → (∀ x ∈ d, Admitted x) →
    d.reverse.foldl t.walk (some []) = some d
  | [], _, _ => rfl
  | x :: d, hd, h => by
    rw [List.reverse_cons, List.foldl_append,
      foldl_walk d (isDir_parent hd) fun y hy => h y (List.mem_cons_of_mem _ hy)]
    exact walk_admitted (isDir_parent hd) (h x List.mem_cons_self)

/-- A path's text names the path. -/
theorem resolve_pathText {t : Tree Name α} {d : Path} (hd : t.isDir d = true)
    (hn : ∀ x ∈ d, Admitted x) {x : Name} (hx : Admitted x) (cwd : Path) :
    t.resolve cwd (pathText (x :: d)) = some (x :: d) := by
  have hs := splitOn_pathText (x :: d) fun y hy => by
    rcases List.mem_cons.mp hy with rfl | hy
    · exact hx.2.2.2
    · exact (hn y hy).2.2.2
  obtain ⟨w, hw⟩ : ∃ w, pathText (x :: d) = '/' :: w := by
    cases hr : (x :: d).reverse with
    | nil => simp at hr
    | cons y ys => exact ⟨_, by rw [pathText, hr, List.flatMap_cons]; rfl⟩
  rw [hw] at hs ⊢
  have hs' : w.splitOn '/' = (x :: d).reverse := by
    rw [List.splitOn_eq_splitOnP] at hs ⊢
    rw [List.splitOnP_cons_eq_if_modifyHead] at hs
    exact (List.cons.inj hs).2
  rw [resolve, hs', List.reverse_cons, List.foldl_append, foldl_walk d hd hn]
  exact walk_admitted hd hx

/-- `rm -f` of the path of a regular file unlinks it. -/
theorem rmOperand_pathText {t : Tree Name α} {d : Path} (hd : t.isDir d = true)
    (hn : ∀ x ∈ d, Admitted x) {x : Name} (hx : Admitted x) (hf : t.isDir (x :: d) = false)
    (now : ℕ) (o : RmOptions) (cwd : Path) :
    t.rmOperand now o cwd (pathText (x :: d)) = t.remove now (x :: d) := by
  have hs := splitOn_pathText (x :: d) fun y hy => by
    rcases List.mem_cons.mp hy with rfl | hy
    · exact hx.2.2.2
    · exact (hn y hy).2.2.2
  have hlast : ((pathText (x :: d)).splitOn '/').getLastD [] = x := by
    rw [hs, List.reverse_cons, ← List.cons_append, List.getLastD_eq_getLast?, List.getLast?_concat]
    rfl
  unfold rmOperand
  rw [hlast, if_neg, resolve_pathText hd hn hx cwd]
  · simp [hf]
  · rintro (h | h)
    · exact hx.2.1 h.symm
    · exact hx.2.2.1 h.symm

theorem foldl_rmOperand (now : ℕ) (o : RmOptions) (cwd d : Path) (hn : ∀ x ∈ d, Admitted x) :
    ∀ (xs : List Name) (t : Tree Name α), t.isDir d = true →
      (∀ x ∈ xs, Admitted x ∧ t.isDir (x :: d) = false) →
      (xs.map fun x => pathText (x :: d)).foldl (fun t w => t.rmOperand now o cwd w) t =
        t.removeAll now (xs.map (· :: d))
  | [], _, _, _ => rfl
  | x :: xs, t, hd, h => by
    obtain ⟨hx, hf⟩ := h x List.mem_cons_self
    rw [List.map_cons, List.foldl_cons, rmOperand_pathText hd hn hx hf,
      foldl_rmOperand now o cwd d hn xs _ (by simpa using hd)
        fun y hy => by simpa using h y (List.mem_cons_of_mem _ hy)]
    rfl

/-- **On tidy names the pipeline unlinks what is past the `k` newest.** -/
theorem prune_eq_removeAll {t : Tree Name α} {d : Path} {pre : Text} {k : ℕ}
    (htidy : t.Tidy d pre k) (hplain : ∀ x ∈ d, Plain x)
    (hn : ∀ x ∈ d, Admitted x) (hx : ∀ x ∈ t.glob d pre, Admitted x) (now : ℕ) (cwd : Path) :
    t.prune now cwd d pre k = t.removeAll now ((t.overflow d pre k).map (· :: d)) := by
  have hslash : ∀ x : Name, ∃ w, pathText (x :: d) = '/' :: w := fun x => by
    cases hr : (x :: d).reverse with
    | nil => simp at hr
    | cons y ys => exact ⟨_, by rw [pathText, hr, List.flatMap_cons]; rfl⟩
  -- the text of the directory is plain, so a path is plain if its name is
  have hdir : ∀ p : Path, (∀ x ∈ p, Plain x) → Plain (pathText p) := fun p hp c hc => by
    simp only [pathText, List.mem_flatMap, List.mem_reverse, List.mem_cons] at hc
    obtain ⟨x, hx, rfl | hc⟩ := hc
    · decide
    · exact hp x hx c hc
  have hline : ∀ l ∈ (t.newest d (t.glob d pre)).map fun x => pathText (x :: d), '\n' ∉ l := by
    intro l hl
    obtain ⟨x, hx, rfl⟩ := List.mem_map.mp hl
    rw [pathText_cons, List.mem_append, List.mem_cons, not_or, not_or]
    exact ⟨newline_notMem_of_plain (hdir d hplain), by decide, htidy.line x ((t.mem_newest ..).mp hx)⟩
  have hwords : xargs (unlines (((t.overflow d pre k)).map fun x => pathText (x :: d))) =
      (t.overflow d pre k).map fun x => pathText (x :: d) := by
    refine xargs_unlines _ fun l hl => ?_
    obtain ⟨x, hx, rfl⟩ := List.mem_map.mp hl
    obtain ⟨w, hw⟩ := hslash x
    refine ⟨hdir _ fun y hy => ?_, '/', w, hw, by decide⟩
    rcases List.mem_cons.mp hy with rfl | hy
    · exact htidy.plain y hx
    · exact hplain y hy
  unfold prune
  rw [lsNewest_of_files htidy.file, dropLines_unlines _ _ hline, ← List.map_drop]
  change (match xargs (unlines ((t.overflow d pre k).map fun x => pathText (x :: d))) with
    | [] => t
    | w :: ws => t.rm now cwd (w :: ws)) = _
  rw [hwords]
  cases ho : t.overflow d pre k with
  | nil => rfl
  | cons x xs =>
    have hmem : x ∈ t.glob d pre := mem_glob_of_mem_overflow (k := k) (by rw [ho]; exact List.mem_cons_self)
    have hisDir : t.isDir d = true := isDir_of_mem_names ((t.mem_glob ..).mp hmem).1
    rw [List.map_cons]
    simp only
    rw [← List.map_cons (f := fun x => pathText (x :: d)), rm,
      rmOptions_absolute _ _ fun w hw => by
        obtain ⟨y, -, rfl⟩ := List.mem_map.mp hw
        exact hslash y]
    simp only [RmOptions.force, reduceCtorEq, false_and, or_self, if_false]
    refine foldl_rmOperand now _ cwd d hn (x :: xs) t hisDir fun y hy => ?_
    have hy' := mem_glob_of_mem_overflow (ho ▸ hy)
    exact ⟨hx y hy', htidy.file y hy'⟩

end Tree

end OpsScripts
