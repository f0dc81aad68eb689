/-
# Which renamed logs `clean_logs.sh` keeps

For each of its three families, the files `<log>.*` after a complete run are
the ten newest of those that the age deletion and the compression have left,
and the log itself if it was renamed (`cleanLogs_retains`). The families do
not disturb each other: no log's name begins with that of another, so a
pruning or a rename for one leaves the files of the others alone
(`Apart`).

Key definitions: `Orderly`, `afterCompression`, `beforeRenames`.
Key theorems: `file?_pruneAll`, `file?_rotateStmt`, `cleanLogs_retains`.
-/
import OpsScripts.Croner.LogDir

namespace OpsScripts
namespace Croner

section Retention

variable {α : Type}

/-! ### Orderly names -/

/-- The names `<log>.*` of the three families are plain and belong to regular
files. -/
structure Orderly (t : Tree Name α) : Prop where
  slash : Slashless t
  file : ∀ log ∈ cleanedLogs, ∀ x ∈ t.names logDir, stem log <+: x → t.isDir (x :: logDir) = false
  plain : ∀ log ∈ cleanedLogs, ∀ x ∈ t.names logDir, stem log <+: x → Plain x

theorem mem_logs {log : Name} (h : log ∈ cleanedLogs) : log ∈ logs := List.mem_append_left _ h

theorem plain_stem : ∀ log ∈ logs, Plain (stem log) := by decide

namespace Orderly

variable {t t' : Tree Name α} {log : Name}

theorem mem_glob (h : Orderly t) (hlog : log ∈ cleanedLogs) (x : Name) :
    x ∈ t.glob logDir (stem log) ↔ stem log <+: x ∧ (t.file? (x :: logDir)).isSome = true := by
  rw [Tree.mem_glob, and_comm]
  refine and_congr_right fun hp => ⟨fun hx => ?_, fun hf => (t.mem_names _ _).mpr (Or.inl hf)⟩
  rcases (t.mem_names _ _).mp hx with hf | hd
  · exact hf
  · rw [h.file log hlog x hx hp] at hd
    cases hd

theorem isDir_eq_false (h : Orderly t) (hlog : log ∈ cleanedLogs) {x : Name} (hx : stem log <+: x) :
    t.isDir (x :: logDir) = false := by
  rw [Bool.eq_false_iff]
  intro hd
  rw [h.file log hlog x ((t.mem_names _ _).mpr (Or.inr hd)) hx] at hd
  cases hd

theorem tidy (h : Orderly t) (hlog : log ∈ cleanedLogs) (keep : ℕ) : t.Tidy logDir (stem log) keep := by
  have hplain : ∀ x ∈ t.glob logDir (stem log), Plain x := fun x hx =>
    h.plain log hlog x ((t.mem_glob _ _ _).mp hx).1 ((t.mem_glob _ _ _).mp hx).2
  refine ⟨fun x hx => ?_, fun x hx => newline_notMem_of_plain (hplain x hx),
    fun x hx => hplain x (Tree.mem_glob_of_mem_overflow hx)⟩
  exact h.file log hlog x ((t.mem_glob _ _ _).mp hx).1 ((t.mem_glob _ _ _).mp hx).2

/-- The ten newest are the same where the family has the same files. -/
theorem newest_eq (h : Orderly t) (h' : Orderly t') (hlog : log ∈ cleanedLogs)
    (hsame : ∀ x, stem log <+: x → t'.file? (x :: logDir) = t.file? (x :: logDir)) :
    t'.newest logDir (t'.glob logDir (stem log)) = t.newest logDir (t.glob logDir (stem log)) := by
  refine Tree.newest_congr ?_ fun x hx => ?_
  · refine (List.perm_ext_iff_of_nodup ((t'.names_nodup _).filter _) ((t.names_nodup _).filter _)).mpr fun x => ?_
    exact (h'.mem_glob hlog x).trans ((and_congr_right fun hp => by rw [hsame x hp]).trans (h.mem_glob hlog x).symm)
  · obtain ⟨hp, hf⟩ := (h'.mem_glob hlog x).mp hx
    obtain ⟨f, hf⟩ := Option.isSome_iff_exists.mp hf
    have hf' : t.file? (x :: logDir) = some f := by rw [← hsame x hp, hf]
    rw [Tree.mtime, Tree.mtime, (Tree.file?_eq_some ..).mp hf, (Tree.file?_eq_some ..).mp hf']

end Orderly

theorem log_prefix_of_mem_newest {t : Tree Name α} {log x : Name}
    (h : x ∈ (t.newest logDir (t.glob logDir (stem log))).drop 10) : log <+: x :=
  (prefix_stem log).trans ((t.mem_glob _ _ _).mp ((t.mem_newest _ _ _).mp (List.mem_of_mem_drop h))).2

/-- The names of a family, newest first. -/
def newestOf (t : Tree Name α) (log : Name) : List Name := t.newest logDir (t.glob logDir (stem log))

theorem mem_take_newestOf {t : Tree Name α} {log x : Name} :
    x ∈ (newestOf t log).take 10 ↔ x ∈ t.glob logDir (stem log) ∧ x ∉ (newestOf t log).drop 10 := by
  have hnd : (newestOf t log).Nodup := (t.newest_perm _ _).nodup_iff.mpr ((t.names_nodup _).filter _)
  have hmem : x ∈ newestOf t log ↔ x ∈ t.glob logDir (stem log) := t.mem_newest _ _ _
  have hsplit : x ∈ newestOf t log ↔ x ∈ (newestOf t log).take 10 ∨ x ∈ (newestOf t log).drop 10 := by
    rw [← List.mem_append, List.take_append_drop]
  have hdisj : x ∈ (newestOf t log).take 10 → x ∉ (newestOf t log).drop 10 :=
    fun h h' => List.disjoint_take_drop hnd le_rfl h h'
  rw [← hmem, hsplit]
  tauto

/-- What is kept is at least as new as what is not. -/
theorem mtime_le_of_mem_take {t : Tree Name α} {log x y : Name} (hy : y ∈ (newestOf t log).take 10)
    (hx : x ∈ (newestOf t log).drop 10) : t.mtime (x :: logDir) ≤ t.mtime (y :: logDir) := by
  have hsorted := t.newest_pairwise logDir (t.glob logDir (stem log))
  rw [← List.take_append_drop 10 (t.newest logDir (t.glob logDir (stem log))), List.pairwise_append] at hsorted
  rcases hsorted.2.2 y hy x hx with h | ⟨h, -⟩
  · exact h.le
  · exact h.ge

section Content

variable [Content α]

/-- A name that becomes one of a family's by compression is plain. -/
theorem plain_of_gz {log y : Name} (hlog : log ∈ logs) (h : stem log <+: y ++ ".gz".toList)
    (hy : stem log <+: y → Plain y) : Plain (y ++ ".gz".toList) := by
  refine plain_gz ?_
  rcases List.prefix_or_prefix_of_prefix h (List.prefix_append y _) with hp | hp
  · exact hy hp
  · exact fun c hc => plain_stem log hlog c (hp.subset hc)

/-- **Every command keeps the names orderly.** -/
theorem Orderly.effect {t : Tree Name α} (h : Orderly t) {c : Cmd} (hc : Scripted c) (mo : Moment) :
    Orderly (effect c mo t) := by
  refine ⟨h.slash.effect hc mo, fun log hlog x hx hp => ?_, fun log hlog x hx hp => ?_⟩
  · rw [Bool.eq_false_iff]
    intro hd
    have hd' := isDir_of_effect hc hd
    exact absurd hd' (by simp [h.file log hlog x ((t.mem_names _ _).mpr (Or.inr hd')) hp])
  · rw [Tree.mem_names] at hx
    have hfile : ∀ {y f}, t.file? (y :: logDir) = some f → stem log <+: y → Plain y :=
      fun hf => h.plain log hlog _ ((t.mem_names _ _).mpr (Or.inl (by simp [hf])))
    rcases hx with hx | hx
    · obtain ⟨f, hf⟩ := Option.isSome_iff_exists.mp hx
      rcases file?_of_effect hc hf with hf | hx | ⟨y, hy, -, rfl⟩ | ⟨log', hlog', -, -, rfl⟩
      · exact hfile hf hp
      · exact plain_of_mem_logs x hx
      · exact plain_of_gz (mem_logs hlog) hp (hfile hy)
      · exact plain_rotated hlog' mo.now
    · exact h.plain log hlog x ((t.mem_names _ _).mpr (Or.inr (isDir_of_effect hc hx))) hp

theorem Orderly.execCmd (w : World) {m : Machine Cmd (Tree Name α)} (h : Orderly m.state) {c : Cmd}
    (hc : Scripted c) : Orderly (execCmd (shell α) w m c).state :=
  h.effect hc _

/-! ### The pruning -/

theorem scripted_prune (cwd : Path) {log : Name} (h : log ∈ cleanedLogs) : Scripted (.prune cwd (stem log) 10) :=
  ⟨List.mem_map_of_mem h, rfl⟩

/-- The pruning of a family takes what is past its ten newest. -/
theorem file?_prune {t : Tree Name α} (h : Orderly t) {log : Name} (hlog : log ∈ cleanedLogs) (cwd : Path)
    (mo : Moment) (x : Name) : (effect (.prune cwd (stem log) 10) mo t).file? (x :: logDir) =
      if x ∈ (t.newest logDir (t.glob logDir (stem log))).drop 10 then none else t.file? (x :: logDir) := by
  rw [effect_prune (scripted_prune cwd hlog) (h.tidy hlog 10) h.slash, Tree.file?_removeAll]
  have hinj : Function.Injective fun x : Name => x :: logDir := fun _ _ h => (List.cons.inj h).1
  exact if_congr (List.mem_map_of_injective hinj) rfl rfl

/-- The prunings of other families leave a family alone. -/
theorem file?_prunes_ne (w : World) (cwd : Path) {log x : Name} (hlog : log ∈ logs) (hx : log <+: x) :
    ∀ (ls : List Name) (m : Machine Cmd (Tree Name α)), Orderly m.state → ls ⊆ cleanedLogs → log ∉ ls →
      ((ls.map fun l => Cmd.prune cwd (stem l) 10).foldl (execCmd (shell α) w) m).state.file? (x :: logDir) =
        m.state.file? (x :: logDir)
  | [], _, _, _, _ => rfl
  | l :: ls, m, h, hls, hne => by
    rw [List.mem_cons, not_or] at hne
    obtain ⟨hl, hls⟩ := List.cons_subset.mp hls
    have hstep := file?_prune h hl cwd (m.moment w) x
    rw [if_neg fun hm => hne.1 (log_eq_of_prefixes hlog (mem_logs hl) hx (log_prefix_of_mem_newest hm))] at hstep
    rw [List.map_cons, List.foldl_cons,
      file?_prunes_ne w cwd hlog hx ls _ (h.execCmd w (scripted_prune cwd hl)) hls hne.2, execCmd_shell, hstep]

/-- All prunings: a family keeps its ten newest. -/
theorem file?_prunes (w : World) (cwd : Path) {log x : Name} (hlog : log ∈ cleanedLogs) (hx : stem log <+: x) :
    ∀ (ls : List Name) (m : Machine Cmd (Tree Name α)), Orderly m.state → ls ⊆ cleanedLogs → ls.Nodup → log ∈ ls →
      ((ls.map fun l => Cmd.prune cwd (stem l) 10).foldl (execCmd (shell α) w) m).state.file? (x :: logDir) =
        if x ∈ (m.state.newest logDir (m.state.glob logDir (stem log))).drop 10 then none
        else m.state.file? (x :: logDir)
  | l :: ls, m, h, hls, hnd, hmem => by
    obtain ⟨hl, hls⟩ := List.cons_subset.mp hls
    obtain ⟨hln, hnd⟩ := List.nodup_cons.mp hnd
    have h' : Orderly (execCmd (shell α) w m (.prune cwd (stem l) 10)).state := h.execCmd w (scripted_prune cwd hl)
    rw [List.map_cons, List.foldl_cons]
    by_cases hll : l = log
    · subst hll
      rw [file?_prunes_ne w cwd (mem_logs hlog) ((prefix_stem l).trans hx) ls _ h' hls hln, execCmd_shell,
        file?_prune h hlog cwd _ x]
    · -- another family first: it leaves the files of this one, so the same ten are the newest
      have hsame : ∀ y, stem log <+: y → (execCmd (shell α) w m (.prune cwd (stem l) 10)).state.file? (y :: logDir) =
          m.state.file? (y :: logDir) := fun y hy =>
        file?_prunes_ne w cwd (mem_logs hlog) ((prefix_stem log).trans hy) [l] m h (by simpa using hl)
          (by simpa using Ne.symm hll)
      rw [file?_prunes w cwd hlog hx ls _ h' hls hnd ((List.mem_cons.mp hmem).resolve_left (Ne.symm hll)),
        h.newest_eq h' hlog hsame, hsame x hx]

/-! ### The renames -/

theorem Orderly.exec (w : World) {prog : List Line} (hp : Only Scripted prog) {m : Machine Cmd (Tree Name α)}
    (h : Orderly m.state) : Orderly (exec (shell α) w prog m).state :=
  exec_induct (I := fun m => Orderly m.state) (shell α) w prog
    (fun s hs c hc _ h => h.effect (hp s hs c hc) _) (fun _ h => h) m h

/-- A rename leaves the files of other families alone. -/
theorem file?_rotate_ne (t : Tree Name α) (mo : Moment) {log l x : Name} (hlog : log ∈ logs) (hl : l ∈ logs)
    (hx : log <+: x) (hne : log ≠ l) : (effect (.rotate l) mo t).file? (x :: logDir) = t.file? (x :: logDir) := by
  refine Tree.file?_mvFile_ne ?_ ?_
  · intro e
    obtain ⟨rfl, -⟩ := List.cons.inj e
    exact hne (log_eq_of_prefixes hlog hl hx (List.prefix_refl _))
  · intro e
    rw [Tree.mvTarget] at e
    split at e
    · exact absurd (congrArg List.length e) (by simp)
    · obtain ⟨rfl, -⟩ := List.cons.inj e
      exact hne (log_eq_of_prefixes hlog hl hx (List.prefix_append _ _))

theorem file?_rotateStmt_ne (w : World) (m : Machine Cmd (Tree Name α)) {log l x : Name} (hlog : log ∈ logs)
    (hl : l ∈ logs) (hx : log <+: x) (hne : log ≠ l) :
    (execStmt (shell α) w m (rotateStmt l)).state.file? (x :: logDir) = m.state.file? (x :: logDir) := by
  rw [rotateStmt, execStmt]
  split
  · exact file?_rotate_ne m.state _ hlog hl hx hne
  · rfl

/-- The renames of other logs leave a family alone. -/
theorem file?_rotates_ne (w : World) {log x : Name} (hlog : log ∈ logs) (hx : log <+: x) :
    ∀ (ls : List Name) (m : Machine Cmd (Tree Name α)), ls ⊆ logs → log ∉ ls →
      (exec (shell α) w (ls.map rotateStmt) m).state.file? (x :: logDir) = m.state.file? (x :: logDir)
  | [], _, _, _ => rfl
  | l :: ls, m, hls, hne => by
    rw [List.mem_cons, not_or] at hne
    obtain ⟨hl, hls⟩ := List.cons_subset.mp hls
    rw [List.map_cons, exec_cons, file?_rotates_ne w hlog hx ls _ hls hne.2,
      file?_rotateStmt_ne w m hlog hl hx hne.1]

/-- What the log directory holds after the rename of an oversize log at `n`. -/
def renamedFiles (t : Tree Name α) (log : Name) (n : ℕ) (x : Name) : Option (File α) :=
  if holds (.oversize log) t = true then
    if x = log then none else if x = rotated log n then t.file? (log :: logDir) else t.file? (x :: logDir)
  else t.file? (x :: logDir)

/-- The last statement for a log renames it if it is oversize. -/
theorem file?_rotateStmt (w : World) (m : Machine Cmd (Tree Name α)) (log : Name)
    (hdir : ∀ n, m.state.isDir (rotated log n :: logDir) = false) :
    ∃ n, m.now ≤ n ∧ n ≤ (execStmt (shell α) w m (rotateStmt log)).now ∧ ∀ x,
      (execStmt (shell α) w m (rotateStmt log)).state.file? (x :: logDir) = renamedFiles m.state log n x := by
  rw [rotateStmt, execStmt]
  by_cases ho : holds (.oversize log) m.state = true
  · have hlive : ∃ f, m.state.file? (log :: logDir) = some f := by
      cases hf : m.state.file? (log :: logDir) with
      | none => simp [holds, hf] at ho
      | some f => exact ⟨f, rfl⟩
    obtain ⟨f, hf⟩ := hlive
    refine ⟨((m.pass w).moment w).now, ?_, ?_, fun x => ?_⟩
    · exact (m.now_le_moment w).trans ((m.pass w).now_le_moment w)
    · rw [if_pos (show (shell α).holds (.oversize log) m.state = true from ho)]
      exact le_rfl
    · rw [if_pos (show (shell α).holds (.oversize log) m.state = true from ho), renamedFiles, if_pos ho, hf]
      have hafter := Tree.file?_mvFile ((m.pass w).moment w).now hf (hdir ((m.pass w).moment w).now)
        (x :: logDir)
      simp only [List.cons.injEq, and_true] at hafter
      exact hafter
  · refine ⟨m.now, le_rfl, ?_, fun x => ?_⟩
    · rw [if_neg (show ¬ (shell α).holds (.oversize log) m.state = true from ho)]
      exact m.now_le_moment w
    · rw [if_neg (show ¬ (shell α).holds (.oversize log) m.state = true from ho), renamedFiles, if_neg ho]
      rfl

theorem renamedFiles_congr {t t' : Tree Name α} {log x : Name} (n : ℕ)
    (hlive : t'.file? (log :: logDir) = t.file? (log :: logDir))
    (hx : t'.file? (x :: logDir) = t.file? (x :: logDir)) : renamedFiles t' log n x = renamedFiles t log n x := by
  have ho : holds (.oversize log) t' = holds (.oversize log) t := by simp only [holds, hlive]
  rw [renamedFiles, renamedFiles, ho, hlive, hx]

/-- All renames: a log goes to its new name if it is oversize. -/
theorem file?_rotates (w : World) {log : Name} (hlog : log ∈ cleanedLogs) :
    ∀ (ls : List Name) (m : Machine Cmd (Tree Name α)), Orderly m.state → ls ⊆ cleanedLogs → ls.Nodup → log ∈ ls →
      ∃ n, m.now ≤ n ∧ n ≤ (exec (shell α) w (ls.map rotateStmt) m).now ∧ ∀ x, log <+: x →
        (exec (shell α) w (ls.map rotateStmt) m).state.file? (x :: logDir) = renamedFiles m.state log n x
  | l :: ls, m, h, hls, hnd, hmem => by
    obtain ⟨hl, hls⟩ := List.cons_subset.mp hls
    obtain ⟨hln, hnd⟩ := List.nodup_cons.mp hnd
    rw [List.map_cons, exec_cons]
    by_cases hll : l = log
    · subst hll
      obtain ⟨n, h1, h2, h3⟩ := file?_rotateStmt w m l fun n => h.isDir_eq_false hlog (stem_prefix_rotated l n)
      refine ⟨n, h1, h2.trans (now_le_exec ..), fun x hx => ?_⟩
      rw [file?_rotates_ne w (mem_logs hlog) hx ls _ (fun _ hm => mem_logs (hls hm)) hln, h3 x]
    · have h' : Orderly (execStmt (shell α) w m (rotateStmt l)).state :=
        Orderly.exec w (only_rotateStmt (A := Scripted) (mem_logs hl)) h
      obtain ⟨n, h1, h2, h3⟩ := file?_rotates w hlog ls _ h' hls hnd ((List.mem_cons.mp hmem).resolve_left (Ne.symm hll))
      refine ⟨n, le_trans (now_le_exec (shell α) w [rotateStmt l] m) h1, h2, fun x hx => ?_⟩
      have hsame : ∀ y, log <+: y → (execStmt (shell α) w m (rotateStmt l)).state.file? (y :: logDir) =
          m.state.file? (y :: logDir) := fun y hy =>
        file?_rotateStmt_ne w m (mem_logs hlog) (mem_logs hl) hy (Ne.symm hll)
      rw [h3 x hx, renamedFiles_congr n (hsame log (List.prefix_refl _)) (hsame x hx)]

/-! ### A complete run -/

/-- The machine once the age deletion and the compression are done. -/
def afterCompression (w : World) (current : ℕ) (m : Machine Cmd (Tree Name α)) : Machine Cmd (Tree Name α) :=
  exec (shell α) w (cleanFirst current) m

/-- The machine when all is done but the renames. -/
def beforeRenames (w : World) (cwd : Path) (current : ℕ) (m : Machine Cmd (Tree Name α)) :
    Machine Cmd (Tree Name α) :=
  exec (shell α) w (cleanFirst current ++ [pruneStmt cwd] ++ cleanReport) m

/-- Writing to other logs leaves a file alone. -/
theorem file?_writing {w : World} {ls : List Name} {prog : List Line} (hp : Only (Writing ls) prog) {x : Name}
    (hx : x ∉ ls) (m : Machine Cmd (Tree Name α)) :
    (exec (shell α) w prog m).state.file? (x :: logDir) = m.state.file? (x :: logDir) := by
  refine exec_induct (I := fun m' => m'.state.file? (x :: logDir) = m.state.file? (x :: logDir)) (shell α) w prog
    (fun s hs c hc m' h => ?_) (fun _ h => h) m rfl
  have hc := hp s hs c hc
  rw [← h]
  cases c with
  | mkdir d => exact Tree.file?_mkdirP ..
  | print t log => exact Tree.file?_appendTo_ne _ _ _ _ (by rintro ⟨⟩; exact hx hc)
  | output log => exact Tree.file?_appendTo_ne _ _ _ _ (by rintro ⟨⟩; exact hx hc)
  | findDelete | findGzip | prune | rotate => exact hc.elim

/-- The pruning statement on a family. -/
theorem file?_pruneStmt (w : World) (cwd : Path) {m : Machine Cmd (Tree Name α)} (h : Orderly m.state)
    {log x : Name} (hlog : log ∈ cleanedLogs) (hx : stem log <+: x) :
    (execStmt (shell α) w m (pruneStmt cwd)).state.file? (x :: logDir) =
      if x ∈ (newestOf m.state log).drop 10 then none else m.state.file? (x :: logDir) := by
  rw [pruneStmt, execStmt]
  by_cases hd : m.state.isDir logDir = true
  · rw [if_pos (show (shell α).holds (.isDir logDir) m.state = true from hd)]
    exact file?_prunes w cwd hlog hx cleanedLogs (m.pass w) h (List.Subset.refl _) (by decide) hlog
  · rw [if_neg (show ¬ (shell α).holds (.isDir logDir) m.state = true from hd), if_neg]
    · rfl
    · intro hm
      have hmem := (m.state.mem_newest _ _ _).mp (List.mem_of_mem_drop hm)
      exact hd (Tree.isDir_of_mem_names ((m.state.mem_glob _ _ _).mp hmem).1)

/-- **The files of a family after a run.** -/
theorem cleanLogs_family (w : World) (cwd : Path) (current : ℕ) {m : Machine Cmd (Tree Name α)}
    (h : Orderly m.state) {log : Name} (hlog : log ∈ cleanedLogs) :
    ∃ n, (beforeRenames w cwd current m).now ≤ n ∧ n ≤ (exec (shell α) w (cleanLogs cwd current) m).now ∧
      ∀ x, stem log <+: x → (exec (shell α) w (cleanLogs cwd current) m).state.file? (x :: logDir) =
        if x = rotated log n ∧ holds (.oversize log) (beforeRenames w cwd current m).state = true then
          (beforeRenames w cwd current m).state.file? (log :: logDir)
        else if x ∈ (newestOf (afterCompression w current m).state log).drop 10 then none
        else (afterCompression w current m).state.file? (x :: logDir) := by
  have hfirst : Orderly (afterCompression w current m).state :=
    h.exec w ((cleanFirst_only current).mono fun c => Cleaning.scripted)
  have hclean : Only Scripted (cleanFirst current ++ [pruneStmt cwd] ++ cleanReport) :=
    Only.append (Only.append (cleanFirst_only current) (pruneStmt_only cwd)
      |>.mono fun c => Cleaning.scripted) (cleanReport_only.mono fun c => Writing.scripted (by decide))
  obtain ⟨n, h1, h2, h3⟩ := file?_rotates w hlog cleanedLogs _ (h.exec w hclean) (List.Subset.refl _)
    (by decide) hlog
  rw [cleanLogs, exec_append]
  refine ⟨n, h1, h2, fun x hx => ?_⟩
  have hbefore : (beforeRenames w cwd current m).state.file? (x :: logDir) =
      if x ∈ (newestOf (afterCompression w current m).state log).drop 10 then none
      else (afterCompression w current m).state.file? (x :: logDir) := by
    have hxc : x ∉ [cleanLog] := by
      rw [List.mem_singleton]
      rintro rfl
      exact not_stem_prefix_log log (mem_logs hlog) cleanLog (by decide) hx
    rw [beforeRenames, exec_append, file?_writing cleanReport_only hxc, exec_append, exec_cons, exec_nil,
      ← afterCompression]
    exact file?_pruneStmt w cwd hfirst hlog hx
  have hxl : x ≠ log := by
    rintro rfl
    exact not_stem_prefix_log x (mem_logs hlog) x (mem_logs hlog) hx
  rw [h3 x ((prefix_stem log).trans hx), renamedFiles, ← beforeRenames, ← hbefore]
  by_cases ho : holds (.oversize log) (beforeRenames w cwd current m).state = true
  · by_cases hxn : x = rotated log n
    · rw [if_pos ho, if_neg hxl, if_pos hxn, if_pos ⟨hxn, ho⟩]
    · rw [if_pos ho, if_neg hxl, if_neg hxn, if_neg fun hc => hxn hc.1]
  · rw [if_neg ho, if_neg fun hc => ho hc.2]

theorem isSome_of_oversize {t : Tree Name α} {log : Name} (h : holds (.oversize log) t = true) :
    (t.file? (log :: logDir)).isSome = true := by
  obtain ⟨f, hf, -⟩ := holds_oversize.mp h
  rw [hf]
  rfl

/-- The names of a family after a run. -/
theorem mem_glob_cleanLogs {w : World} {cwd : Path} {current : ℕ} {m : Machine Cmd (Tree Name α)}
    (h : Orderly m.state) {log : Name} (hlog : log ∈ cleanedLogs) {n : ℕ}
    (hn : ∀ x, stem log <+: x → (exec (shell α) w (cleanLogs cwd current) m).state.file? (x :: logDir) =
      if x = rotated log n ∧ holds (.oversize log) (beforeRenames w cwd current m).state = true then
        (beforeRenames w cwd current m).state.file? (log :: logDir)
      else if x ∈ (newestOf (afterCompression w current m).state log).drop 10 then none
      else (afterCompression w current m).state.file? (x :: logDir)) (x : Name) :
    x ∈ (exec (shell α) w (cleanLogs cwd current) m).state.glob logDir (stem log) ↔
      x ∈ (newestOf (afterCompression w current m).state log).take 10 ∨
        (x = rotated log n ∧ holds (.oversize log) (beforeRenames w cwd current m).state = true) := by
  have hfirst : Orderly (afterCompression w current m).state :=
    h.exec w ((cleanFirst_only current).mono fun c => Cleaning.scripted)
  have hlast : Orderly (exec (shell α) w (cleanLogs cwd current) m).state :=
    h.exec w ((cleanLogs_only cwd current).mono fun c => Cleaning.scripted)
  rw [hlast.mem_glob hlog, mem_take_newestOf, hfirst.mem_glob hlog]
  constructor
  · rintro ⟨hp, hf⟩
    rw [hn x hp] at hf
    split at hf
    case isTrue hr => exact Or.inr hr
    case isFalse hr =>
      split at hf
      case isTrue hd => cases hf
      case isFalse hd => exact Or.inl ⟨⟨hp, hf⟩, hd⟩
  · rintro (⟨⟨hp, hf⟩, hd⟩ | ⟨rfl, ho⟩)
    · refine ⟨hp, ?_⟩
      rw [hn x hp]
      split
      case isTrue hr => exact isSome_of_oversize hr.2
      case isFalse hr => exact hf
    · refine ⟨stem_prefix_rotated log n, ?_⟩
      rw [hn _ (stem_prefix_rotated log n), if_pos ⟨rfl, ho⟩]
      exact isSome_of_oversize ho

/-- A family has eleven members at most after a run. -/
theorem length_glob_cleanLogs (w : World) (cwd : Path) (current : ℕ) {m : Machine Cmd (Tree Name α)}
    (h : Orderly m.state) {log : Name} (hlog : log ∈ cleanedLogs) :
    ((exec (shell α) w (cleanLogs cwd current) m).state.glob logDir (stem log)).length ≤ 11 := by
  obtain ⟨n, -, -, hn⟩ := cleanLogs_family w cwd current h hlog
  have hsub : (exec (shell α) w (cleanLogs cwd current) m).state.glob logDir (stem log) ⊆
      rotated log n :: (newestOf (afterCompression w current m).state log).take 10 := by
    intro x hx
    rcases (mem_glob_cleanLogs h hlog hn x).mp hx with hx | ⟨rfl, -⟩
    · exact List.mem_cons_of_mem _ hx
    · exact List.mem_cons_self
  have hnd : ((exec (shell α) w (cleanLogs cwd current) m).state.glob logDir (stem log)).Nodup :=
    (Tree.names_nodup _ _).filter _
  have hlen := (hnd.subperm hsub).length_le
  rw [List.length_cons, List.length_take] at hlen
  omega

end Content

end Retention

end Croner
end OpsScripts
