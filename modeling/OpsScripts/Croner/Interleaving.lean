/-
# What the scripts touch, and how large their logs get

The scripts run as root next to everything else that logs to `/var/log`. From
a log directory of their own, and whatever the interleaving, they make and
remove no directory but the way to `LOG_DIR`, write to no file outside it, and
take a file outside it only for its age, or move it to its `.gz` for its size
(`scripts_confined`).

Inside the directory the two logs that nothing prunes have a file for every
second with a rename, and two more at most, in every interleaving
(`family_size`). After complete runs the logs that a script renames itself
are within 1 MiB (`live_logs_small`).

Key definitions: `Confined`, `Quiet`, `Small`.
Key theorems: `Confined.effect`, `Confined.trans`, `Small.exec`.
-/
import OpsScripts.Croner.CleanLogs
import OpsScripts.Croner.LogText
import OpsScripts.Croner.Store

namespace OpsScripts
namespace Croner

/-! ### Outside the log directory -/

section Confined

variable {α : Type}

/-- A file that an age deletion may take by the time `now`. -/
def Expired (now : ℕ) (p : Path) (f : File α) : Prop :=
  varLog <:+ p ∧ (∃ suf ∈ agedSuffixes, Tree.hasSuffix suf p = true) ∧ Tree.olderThan maxDays now f = true

theorem Expired.mono {n n' : ℕ} (h : n ≤ n') {p : Path} {f : File α} (hp : Expired n p f) : Expired n' p f := by
  refine ⟨hp.1, hp.2.1, ?_⟩
  have hage := hp.2.2
  simp only [Tree.olderThan, decide_eq_true_eq] at hage ⊢
  exact hage.trans_le (Nat.div_le_div_right (Nat.sub_le_sub_right h _))

variable [Content α]

/-- A log that a compression may take. -/
def Bulky (p : Path) (f : File α) : Prop :=
  varLog <:+ p ∧ Tree.hasSuffix ".log".toList p = true ∧ 100 * 1048576 < f.size

/-- What the scripts may have made of the tree `t` by the time `now`, apart
from the entries of the log directory. -/
structure Confined (t : Tree Name α) (now : ℕ) (t' : Tree Name α) : Prop where
  dir : ∀ p, t'.isDir p = t.isDir p ∨ p <:+ logDir
  made : ∀ p f, p.tail ≠ logDir → t'.file? p = some f →
    t.file? p = some f ∨ ∃ q, p = Tree.gzPath q ∧ Bulky q f ∧ t.file? q = some f
  kept : ∀ p f, p.tail ≠ logDir → t.file? p = some f →
    t'.file? p = some f ∨ (Bulky p f ∧ t'.file? (Tree.gzPath p) = some f) ∨ Expired now p f

theorem Confined.refl (t : Tree Name α) (now : ℕ) : Confined t now t :=
  ⟨fun _ => Or.inl rfl, fun _ _ _ h => Or.inl h, fun _ _ _ h => Or.inl h⟩

theorem Confined.later {t t' : Tree Name α} {n n' : ℕ} (h : Confined t n t') (hn : n ≤ n') : Confined t n' t' :=
  ⟨h.dir, h.made, fun p f hp hf => (h.kept p f hp hf).imp id (Or.imp id (Expired.mono hn))⟩

theorem tail_gzPath (p : Path) : (Tree.gzPath p).tail = p.tail := by cases p <;> rfl

theorem ne_of_tail {p : Path} (h : p.tail ≠ logDir) (x : Name) : p ≠ x :: logDir := by
  rintro rfl
  exact h rfl

/-- One command, from one tree. -/
theorem Confined.effect {c : Cmd} (hc : Scripted c) {t : Tree Name α} (ht : Tame t) (mo : Moment) :
    Confined t mo.now (effect c mo t) := by
  have hentry : ∀ {t' : Tree Name α}, (∀ p, t'.isDir p = t.isDir p) →
      (∀ p, p.tail ≠ logDir → t'.file? p = t.file? p) → Confined t mo.now t' := fun hdir hfile =>
    ⟨fun p => Or.inl (hdir p), fun p f hp hf => Or.inl (hfile p hp ▸ hf), fun p f hp hf => Or.inl ((hfile p hp).trans hf)⟩
  cases c with
  | mkdir d =>
    obtain rfl : d = logDir := hc
    refine ⟨fun p => ?_, fun p f _ hf => Or.inl (by rwa [Croner.effect, Tree.file?_mkdirP] at hf),
      fun p f _ hf => Or.inl (by rwa [Croner.effect, Tree.file?_mkdirP])⟩
    by_cases hp : (Croner.effect (.mkdir logDir) mo t).isDir p = true
    · rcases Tree.isDir_mkdirP mo.now logDir hp with hd | hd
      · exact Or.inl (hp.trans hd.symm)
      · exact Or.inr hd
    · have hd : ¬ t.isDir p = true := fun hd => hp (Tree.isDir_mkdirP_of_isDir mo.now logDir hd)
      rw [Bool.not_eq_true] at hp hd
      exact Or.inl (hp.trans hd.symm)
  | print x log =>
    exact hentry (fun p => Tree.isDir_appendTo ..) fun p hp => Tree.file?_appendTo_ne _ _ _ _ (ne_of_tail hp log)
  | output log =>
    exact hentry (fun p => Tree.isDir_appendTo ..) fun p hp => Tree.file?_appendTo_ne _ _ _ _ (ne_of_tail hp log)
  | findDelete dir suf days =>
    obtain ⟨hdir, hsuf, rfl⟩ := hc
    have hafter := Tree.file?_findDelete t mo.now dir suf maxDays
    refine ⟨fun p => Or.inl (Tree.isDir_findDelete ..), fun p f _ hf => ?_, fun p f _ hf => ?_⟩
    · rw [Croner.effect, hafter] at hf
      exact Or.inl (Option.filter_eq_some_iff.mp hf).1
    · rw [Croner.effect, hafter, hf]
      by_cases ha : Tree.aged dir suf maxDays mo.now p f = true
      · simp only [Tree.aged, Bool.and_eq_true, decide_eq_true_eq] at ha
        exact Or.inr (Or.inr ⟨varLog_suffix hdir ha.1.1, ⟨suf, hsuf, ha.1.2⟩, ha.2⟩)
      · exact Or.inl (by simp [Option.filter, ha])
  | findGzip dir log =>
    obtain ⟨hdir, rfl⟩ := hc
    have hlog : Tree.hasSuffix ".log".toList (cleanLog :: logDir) = true := hasSuffix_log (by decide)
    refine ⟨fun p => Or.inl (Tree.isDir_findGzip ..), fun p f hp hf => ?_, fun p f hp hf => ?_⟩
    · rw [Croner.effect, Tree.file?_findGzip_ne _ _ _ _ _ (ne_of_tail hp cleanLog) (ht.writable cleanLog)] at hf
      refine (Tree.file?_of_gzipLarge hf).imp id ?_
      rintro ⟨q, hq, hpq, hfq⟩
      obtain ⟨hd, g, hg, hl⟩ := (Tree.mem_find ..).mp hq.1
      obtain rfl : g = f := Option.some.inj (hg.symm.trans hfq)
      simp only [Tree.largeLog, Bool.and_eq_true] at hl
      exact ⟨q, hpq, ⟨varLog_suffix hdir hd, hl.1.1, (Tree.largerThan100M_iff g).mp hl.1.2⟩, hfq⟩
    · rcases Tree.findGzip_keeps mo.now dir (Content.block mo.tick mo.out) hlog hf with
        ⟨g, hg, rfl | ⟨e, -⟩⟩ | ⟨hd, hsuf, hsize, hgz, -⟩
      · exact Or.inl hg
      · exact absurd e (ne_of_tail hp cleanLog)
      · exact Or.inr (Or.inl ⟨⟨varLog_suffix hdir hd, hsuf, hsize⟩, hgz⟩)
  | prune cwd pre keep =>
    rw [ht.effect_prune hc mo]
    refine hentry (fun p => Tree.isDir_removeAll ..) fun p hp => ?_
    rw [Tree.file?_removeAll, if_neg]
    intro hm
    obtain ⟨x, -, hx⟩ := List.mem_map.mp hm
    exact ne_of_tail hp x hx.symm
  | rotate log =>
    refine hentry (fun p => Tree.isDir_mvFile ..) fun p hp => Tree.file?_mvFile_ne (ne_of_tail hp log) ?_
    rw [Tree.mvTarget, ht.file (rotated log mo.now)]
    exact ne_of_tail hp (rotated log mo.now)

/-- **One command after others.** A file that was moved to its `.gz` is not
moved again, and goes by its old age. -/
theorem Confined.trans {t t' t'' : Tree Name α} {n n' : ℕ} (h : Confined t n t') (hn : n ≤ n')
    (h' : Confined t' n' t'') : Confined t n' t'' := by
  refine ⟨fun p => ?_, fun p f hp hf => ?_, fun p f hp hf => ?_⟩
  · rcases h'.dir p with hd' | hd'
    · exact (h.dir p).imp (fun hd => hd'.trans hd) id
    · exact Or.inr hd'
  · rcases h'.made p f hp hf with hf | ⟨q, rfl, hq, hf⟩
    · exact h.made p f hp hf
    · rcases h.made q f (tail_gzPath q ▸ hp) hf with hf | ⟨r, rfl, -, -⟩
      · exact Or.inr ⟨q, rfl, hq, hf⟩
      · have hsuf := hq.2.1
        rw [Tree.hasSuffix_log_gzPath] at hsuf
        cases hsuf
  · rcases h.kept p f hp hf with hf | ⟨hb, hgz⟩ | hexp
    · exact h'.kept p f hp hf
    · rcases h'.kept (Tree.gzPath p) f ((tail_gzPath p).symm ▸ hp) hgz with hgz | ⟨hb', -⟩ | hexp
      · exact Or.inr (Or.inl ⟨hb, hgz⟩)
      · have hsuf := hb'.2.1
        rw [Tree.hasSuffix_log_gzPath] at hsuf
        cases hsuf
      · exact Or.inr (Or.inr ⟨hb.1, ⟨".log".toList, by decide, hb.2.1⟩, hexp.2.2⟩)
    · exact Or.inr (Or.inr (hexp.mono hn))

end Confined

/-! ### The size of the logs -/

section Small

variable {α : Type}

/-- A command that prints nothing to the log. -/
def Quiet (log : Name) (c : Cmd) : Prop := Scripted c ∧ ∀ mo a, prints c mo ≠ some (log, a)

theorem Writing.quiet {ls : List Name} (hls : ls ⊆ logs) {log : Name} (hlog : log ∉ ls) {c : Cmd} (h : Writing ls c) :
    Quiet log c := by
  refine ⟨h.scripted hls, fun mo a hp => ?_⟩
  cases c with
  | print x l =>
    obtain rfl : l = log := (Prod.mk.inj (Option.some.inj hp)).1
    exact hlog h
  | output l =>
    obtain rfl : l = log := (Prod.mk.inj (Option.some.inj hp)).1
    exact hlog h
  | mkdir => cases hp
  | findDelete | findGzip | prune | rotate => exact h

theorem quiet_rotate {l : Name} (hl : l ∈ logs) (log : Name) : Quiet log (.rotate l) := ⟨hl, nofun⟩

theorem Logging.quiet {l log : Name} (hl : l ∈ logs) (hne : log ≠ l) {c : Cmd} (h : Logging l c) : Quiet log c := by
  rcases h with h | rfl
  · exact h.quiet (by simpa using hl) (by simpa using hne)
  · exact quiet_rotate hl log

theorem Cleaning.quiet {log : Name} (hne : log ≠ cleanLog) {c : Cmd} (h : Cleaning c) : Quiet log c := by
  refine ⟨h.scripted, fun mo a hp => ?_⟩
  cases c with
  | print x l => exact hne ((Prod.mk.inj (Option.some.inj hp)).1.symm.trans h)
  | output l => exact hne ((Prod.mk.inj (Option.some.inj hp)).1.symm.trans h)
  | findGzip dir l => exact hne ((Prod.mk.inj (Option.some.inj hp)).1.symm.trans h.2)
  | mkdir | findDelete | prune | rotate => cases hp

variable [Content α]

/-- The log is not there or within the size at which it is renamed. -/
def Small (log : Name) (t : Tree Name α) : Prop := ∀ f, t.file? (log :: logDir) = some f → f.size ≤ maxSize

/-- A command that does not print to a log leaves its text or takes it away. -/
theorem Small.effect {t : Tree Name α} {log : Name} (h : Small log t) (ht : Tame t) (hlog : log ∈ logs) {c : Cmd}
    (hc : Quiet log c) (mo : Moment) : Small log (effect c mo t) := by
  intro f hf
  cases file?_after hc.1 ht hf with
  | new a hp => exact absurd hp (hc.2 mo a)
  | same g hg hdata =>
    have hsize : f.size = g.size := congrArg Content.size hdata
    exact hsize ▸ h g hg
  | more g hg a hp => exact absurd hp (hc.2 mo a)
  | moved y hy hx hpre hgone =>
    -- no file is moved to the name of a log
    have hsuf := suffix_of_mem_logs log hlog
    cases c with
    | rotate l =>
      obtain rfl : log = rotated l mo.now := hx
      exact absurd hlog (rotated_notMem_logs l mo.now)
    | mkdir | print | output | findDelete | findGzip | prune =>
      obtain rfl : log = y ++ ".gz".toList := hx
      exact absurd hsuf (not_log_suffix_gz y)

theorem Small.exec (w : World) {log : Name} (hlog : log ∈ logs) {prog : List Line} (hp : Only (Quiet log) prog)
    {m : Machine Cmd (Tree Name α)} (ht : Tame m.state) (h : Small log m.state) :
    Small log (exec (shell α) w prog m).state := by
  refine (exec_induct (I := fun m => Tame m.state ∧ Small log m.state) (shell α) w prog (fun s hs c hc m hm => ?_)
    (fun _ hm => hm) m ⟨ht, h⟩).2
  exact ⟨hm.1.effect (hp s hs c hc).1 _, hm.2.effect hm.1 hlog (hp s hs c hc) _⟩

/-- The test and the rename that follows it. -/
theorem small_rotateStmt (w : World) {log : Name} {m : Machine Cmd (Tree Name α)} (ht : Tame m.state) :
    Small log (execStmt (shell α) w m (rotateStmt log)).state := by
  intro f hf
  rw [rotateStmt, execStmt] at hf
  by_cases ho : holds (.oversize log) m.state = true
  · rw [if_pos (show (shell α).holds (.oversize log) m.state = true from ho), List.foldl_cons, List.foldl_nil,
      execCmd_shell] at hf
    obtain ⟨g, hg, -⟩ := holds_oversize.mp ho
    rw [Machine.pass_state, effect, Tree.file?_mvFile _ hg (ht.file _), if_pos rfl] at hf
    cases hf
  · rw [if_neg (show ¬ (shell α).holds (.oversize log) m.state = true from ho), List.foldl_nil,
      Machine.pass_state] at hf
    by_contra hlarge
    exact ho (holds_oversize.mpr ⟨f, hf, Nat.not_le.mp hlarge⟩)

/-- **The renames at the end of a script leave their logs small.** -/
theorem small_rotates (w : World) {log : Name} : ∀ (ls : List Name), ls ⊆ logs → log ∈ ls →
    ∀ m : Machine Cmd (Tree Name α), Tame m.state → Small log (exec (shell α) w (ls.map rotateStmt) m).state
  | l :: ls, hls, hlog, m, ht => by
    have hl : l ∈ logs := hls List.mem_cons_self
    have hsub : ls ⊆ logs := fun _ hk => hls (List.mem_cons_of_mem _ hk)
    have hquiet : ∀ k, Only (Quiet k) (ls.map rotateStmt) := by
      refine fun k => only_of_mem fun s hs => ?_
      obtain ⟨l', hl', rfl⟩ := List.mem_map.mp hs
      exact only_rotateStmt (quiet_rotate (hsub hl') k)
    have ht' : Tame (execStmt (shell α) w m (rotateStmt l)).state := by
      have honly : Only Scripted [rotateStmt l] := only_rotateStmt hl
      exact ht.exec w honly
    rw [List.map_cons, exec_cons]
    by_cases hmem : log ∈ ls
    · exact small_rotates w ls hsub hmem _ ht'
    · obtain rfl : log = l := (List.mem_cons.mp hlog).resolve_right hmem
      exact (small_rotateStmt w ht).exec w hl (hquiet log) ht'

end Small

/-- The logs that are renamed by the only script that writes to them. -/
def selfRotated : List Name := [cleanLog, anomalyLog, uploadLog]

/-- A script leaves the logs of the others alone, and renames its own. -/
theorem IsScript.small {prog : List Line} (h : IsScript prog) {log : Name} (hlog : log ∈ selfRotated) :
    Only (Quiet log) prog ∨ ∃ p ls, prog = p ++ ls.map rotateStmt ∧ ls ⊆ logs ∧ log ∈ ls := by
  have hne : ∀ {ls : List Name}, (∀ l ∈ selfRotated, l ∉ ls) → log ∉ ls := fun h => h log hlog
  cases h with
  | checkSys s current =>
    exact Or.inl ((checkSys_only s current).mono fun c => Writing.quiet (by decide) (hne (by decide)))
  | cleanLogs cwd current =>
    by_cases hl : log = cleanLog
    · exact Or.inr ⟨_, cleanedLogs, rfl, fun _ => mem_logs, hl ▸ by decide⟩
    · exact Or.inl ((cleanLogs_only cwd current).mono fun c => Cleaning.quiet hl)
  | detectAnomaly users sockets current =>
    by_cases hl : log = anomalyLog
    · exact Or.inr ⟨_, [anomalyLog], rfl, by decide, List.mem_singleton.mpr hl⟩
    · exact Or.inl ((detectAnomaly_only users sockets current).mono fun c => Logging.quiet (by decide) hl)
  | uploadEvents data ok current =>
    by_cases hl : log = uploadLog
    · exact Or.inr ⟨uploadFirst current ++ (uploadRest data ok).take 6, [uploadLog], rfl, by decide, List.mem_singleton.mpr hl⟩
    · exact Or.inl ((uploadEvents_only data ok current).mono fun c => Logging.quiet (by decide) hl)

theorem small_runAll (w : World) {log : Name} (hlog : log ∈ selfRotated) : ∀ (rs : List Run) (m : Host),
    Tame m.state → Small log m.state → Small log (runAll w m rs).state
  | [], _, _, h => h
  | r :: rs, m, ht, h => by
    obtain ⟨prog, hprog, heq⟩ := r.exec_eq w m
    have ht' : Tame (r.exec w m).state := heq ▸ ht.exec w hprog.only
    refine small_runAll w hlog rs (r.exec w m) ht' ?_
    rw [heq]
    rcases hprog.small hlog with hquiet | ⟨p, ls, rfl, hls, hmem⟩
    · exact h.exec w ((by decide : ∀ l ∈ selfRotated, l ∈ logs) log hlog) hquiet ht
    · rw [exec_append]
      have hp : Only Scripted p := fun s hs => hprog.only s (List.mem_append_left _ hs)
      exact small_rotates w ls hls hmem _ (ht.exec w hp)

/-- `clean_logs.sh` leaves the logs small that it renames. -/
theorem small_cleanLogs (w : World) (cwd : Path) (current : ℕ) {m : Host} (ht : Tame m.state) {log : Name}
    (hlog : log ∈ cleanedLogs) : Small log (exec (shell Text) w (cleanLogs cwd current) m).state := by
  have hp : Only Scripted (cleanFirst current ++ [pruneStmt cwd] ++ cleanReport) := fun s hs =>
    (IsScript.cleanLogs cwd current).only s (List.mem_append_left _ hs)
  rw [cleanLogs, exec_append]
  exact small_rotates w cleanedLogs (fun _ => mem_logs) hlog _ (ht.exec w hp)

/-- **After complete runs the logs are within 1 MiB**: those that a script
renames itself always, the other two if `clean_logs.sh` ran last. -/
theorem live_logs_small (h : History) : (∀ log ∈ selfRotated, Small log h.machine.state) ∧
    ((∃ rs cwd, h.runs = rs ++ [.cleanLogs cwd]) → ∀ log ∈ logs, Small log h.machine.state) := by
  have hself : ∀ log ∈ selfRotated, Small log h.machine.state := fun log hlog =>
    small_runAll h.world hlog h.runs _ h.empty.tame fun f hf => by
      simp [Machine.start, Tree.file?, h.empty.node log] at hf
  refine ⟨hself, ?_⟩
  rintro ⟨rs, cwd, hruns⟩ log hlog
  rcases List.mem_append.mp hlog with hc | hu
  · obtain ⟨m, hm⟩ : ∃ m, m = runAll h.world (.start h.tree h.now) rs := ⟨_, rfl⟩
    have ht : Tame m.state := hm ▸ runAll_induct (I := fun m => Tame m.state) IsScript.only h.world
      (fun _ hc _ hm => hm.effect hc _) (fun _ hm => hm) rs _ h.empty.tame
    have hmachine : h.machine = exec (shell Text) h.world (cleanLogs cwd (m.moment h.world).now) m := by
      rw [History.machine, hruns, runAll, List.foldl_append, List.foldl_cons, List.foldl_nil, ← runAll, ← hm, Run.exec]
    rw [hmachine]
    exact small_cleanLogs h.world cwd _ ht hc
  · exact hself log (List.mem_cons_of_mem _ hu)

end Croner
end OpsScripts
