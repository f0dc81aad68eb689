/-
# What an upload sees of the alerts

`check_sys.sh` appends its alerts to `system_alerts.log`, `upload_events.sh`
sends the last ten lines of that file, and `clean_logs.sh` deletes, compresses
or renames it. Complete runs, one after another, from an empty directory: the
file holds the alerts from some point of the history on, and what was before
that point is eight days old or older (`Tracked`). Only a compression or a
rename could take younger ones away, so an upload sees the alerts of the last
seven days if the file is small enough whenever `clean_logs.sh` comes to it
(`alerts_visible`). If it is not, the next upload says that there were none
(`alerts_hidden`).

Key definitions: `alertsIn`, `recentAlerts`, `uploadedAlerts`, `Visible`,
`AlertsSmall`, `Tracked`.
Key theorems: `alertFate`, `guarded_exec`, `Tracked.next`, `alerts_visible`.
-/
import OpsScripts.Croner.Store

namespace OpsScripts
namespace Croner

/-! ### Alerts -/

/-- A line that begins with a bracket, without a newline or a NUL. -/
structure Alert (l : Text) : Prop where
  head : l.head? = some '['
  newline : '\n' ∉ l
  nul : '\x00' ∉ l

theorem notMem_figureAlert {c : Char} (hc : c = '\n' ∨ c = '\x00') (current : ℕ) {what : String}
    (hwhat : c ∉ what.toList) (r : Reading) : c ∉ figureAlert current what r := by
  have hdate : c ∉ dateTime current := by
    rcases hc with rfl | rfl <;> exact notMem_dateTime (by decide) (by decide) (by decide) (by decide) current
  have hr : c ∉ r.text := by
    rcases hc with rfl | rfl <;> exact notMem_reading (by decide) (by decide) (by decide) r
  simp only [figureAlert, List.mem_append, not_or]
  refine ⟨⟨⟨⟨⟨⟨⟨⟨?_, hdate⟩, ?_⟩, hwhat⟩, ?_⟩, hr⟩, ?_⟩, ?_⟩, ?_⟩ <;> rcases hc with rfl | rfl <;> decide

theorem notMem_diskAlertLine {c : Char} (hc : c = '\n' ∨ c = '\x00') (current : ℕ) {df : Text} (hdf : '\x00' ∉ df)
    {r : Text × Text} (hr : r ∈ diskAlerts df) : c ∉ diskAlertLine (dateTime current) r := by
  have hdate : c ∉ dateTime current := by
    rcases hc with rfl | rfl <;> exact notMem_dateTime (by decide) (by decide) (by decide) (by decide) current
  have hread : ¬ (c ∈ r.1 ∨ c ∈ r.2) := by
    intro h
    obtain ⟨hn, hmem⟩ := of_mem_diskAlerts hr h
    rcases hc with rfl | rfl
    · exact hn rfl
    · exact hmem.elim (by decide) hdf
  rw [not_or] at hread
  simp only [diskAlertLine, List.mem_append, not_or]
  refine ⟨⟨⟨⟨⟨⟨⟨⟨?_, hdate⟩, ?_⟩, hread.2⟩, ?_⟩, hread.1⟩, ?_⟩, ?_⟩, ?_⟩ <;> rcases hc with rfl | rfl <;> decide

theorem alert_of_mem {s : Status} {current : ℕ} {l : Text} (h : l ∈ alertLines s current) : Alert l := by
  have hfigure : ∀ (what : String) (r : Reading), '\n' ∉ what.toList → '\x00' ∉ what.toList →
      Alert (figureAlert current what r) := fun what r hn h0 =>
    ⟨rfl, notMem_figureAlert (Or.inl rfl) current hn r, notMem_figureAlert (Or.inr rfl) current h0 r⟩
  simp only [alertLines, List.mem_append] at h
  rcases h with (h | h) | h
  · split at h
    · rw [List.mem_singleton.mp h]
      exact hfigure _ _ (by decide) (by decide)
    · cases h
  · split at h
    · rw [List.mem_singleton.mp h]
      exact hfigure _ _ (by decide) (by decide)
    · cases h
  · obtain ⟨r, hr, rfl⟩ := List.mem_map.mp h
    exact ⟨rfl, notMem_diskAlertLine (Or.inl rfl) current s.df_nul hr,
      notMem_diskAlertLine (Or.inr rfl) current s.df_nul hr⟩

/-- The alert that a step appended, and when. -/
def alertOf (s : Step Cmd (Tree Name Text)) : Option (ℕ × Text) :=
  match s.cmd with
  | .print t log => if log = alertLog then some (s.moment.now, t.dropLast) else none
  | _ => none

/-- The alerts of a past, in order. -/
def alertsIn (past : List (Step Cmd (Tree Name Text))) : List (ℕ × Text) := past.filterMap alertOf

/-- Those of the seven days before `time`. -/
def recentAlerts (past : List (Step Cmd (Tree Name Text))) (time : ℕ) : List Text :=
  ((alertsIn past).filter fun a => time ≤ a.1 + maxDays * day).map Prod.snd

/-- `ALERTS` of an upload that starts in `m`. -/
def uploadedAlerts (w : World) (m : Host) (c : Collected) : Text :=
  alertsOf (collected (exec (shell Text) w (uploadFirst (m.moment w).now) m) c).alertLog

/-- The last lines of `alerts` are the last of `due`, and there are none only
if none are due. -/
def Visible (alerts : Text) (due : List Text) : Prop :=
  (lines alerts).rtake (min 10 due.length) = due.rtake (min 10 due.length) ∧
    (alerts = "No alerts found".toList → due = [])

/-- A compression or a rename finds `system_alerts.log` small enough to be left
where it is. -/
def AlertsSmall (s : Step Cmd (Tree Name Text)) : Prop :=
  match s.cmd with
  | .findGzip _ _ => ∀ f, s.before.file? (alertLog :: logDir) = some f → f.size ≤ 100 * 1048576
  | .rotate log => log = alertLog → ∀ f, s.before.file? (alertLog :: logDir) = some f → f.size ≤ 1048576
  | _ => True

/-! ### The commands -/

/-- A command of the scripts, with alerts for `system_alerts.log`. -/
def Alerting : Cmd → Prop
  | .print t log => log ∈ logs ∧ (log = alertLog → ∃ l, Alert l ∧ t = l ++ ['\n'])
  | .output log => log ∈ logs ∧ log ≠ alertLog
  | c => Scripted c

theorem Alerting.scripted {c : Cmd} (h : Alerting c) : Scripted c := by
  cases c with
  | print t log => exact h.1
  | output log => exact h.1
  | mkdir | findDelete | findGzip | prune | rotate => exact h

theorem Writing.alerting {ls : List Name} (hls : ls ⊆ logs) (hne : alertLog ∉ ls) {c : Cmd} (h : Writing ls c) :
    Alerting c := by
  cases c with
  | mkdir d => exact h
  | print t log => exact ⟨hls h, fun e => absurd (e ▸ h) hne⟩
  | output log => exact ⟨hls h, fun e => hne (e ▸ h)⟩
  | findDelete | findGzip | prune | rotate => exact h.elim

theorem Logging.alerting {log : Name} (hlog : log ∈ logs) (hne : alertLog ≠ log) {c : Cmd} (h : Logging log c) :
    Alerting c := by
  rcases h with h | rfl
  · exact h.alerting (by simpa using hlog) (by simpa using hne)
  · exact hlog

theorem Cleaning.alerting {c : Cmd} (h : Cleaning c) : Alerting c := by
  have hne : cleanLog ≠ alertLog := by decide
  cases c with
  | print t log => exact ⟨Cleaning.scripted h, fun e => absurd (h.symm.trans e) hne⟩
  | output log => exact ⟨Cleaning.scripted h, fun e => hne (h.symm.trans e)⟩
  | rotate log => exact mem_logs h
  | mkdir | findDelete | findGzip | prune => exact h

theorem IsScript.alerting {prog : List Line} (h : IsScript prog) : Only Alerting prog := by
  cases h with
  | checkSys s current =>
    refine only_map_cmd fun c hc => ?_
    rcases of_mem_checkSysCmds hc with h | ⟨l, hl, rfl⟩
    · exact h.alerting (by decide) (by decide)
    · exact ⟨by decide, fun _ => ⟨l, alert_of_mem hl, rfl⟩⟩
  | cleanLogs cwd current => exact (cleanLogs_only cwd current).mono fun c => Cleaning.alerting
  | detectAnomaly users sockets current =>
    exact (detectAnomaly_only users sockets current).mono fun c => Logging.alerting (by decide) (by decide)
  | uploadEvents data ok current =>
    exact (uploadEvents_only data ok current).mono fun c => Logging.alerting (by decide) (by decide)

/-- What a command does to `system_alerts.log`. -/
inductive AlertFate (c : Cmd) (mo : Moment) (t : Tree Name Text) : Prop
  | kept (quiet : alertOf ⟨c, mo, t⟩ = none)
    (same : (effect c mo t).file? (alertLog :: logDir) = t.file? (alertLog :: logDir))
  | written (l : Text) (alert : Alert l) (cmd : c = .echo l alertLog)
  | gone (quiet : alertOf ⟨c, mo, t⟩ = none) (f : File Text) (before : t.file? (alertLog :: logDir) = some f)
    (after : (effect c mo t).file? (alertLog :: logDir) = none)
    (why : maxDays < (mo.now - f.mtime) / day ∨
      (∃ dir log, c = .findGzip dir log ∧ 100 * 1048576 < f.size) ∨ c = .rotate alertLog)

/-- **It is kept or written to, or it goes: by age, by size or by its rename.** -/
theorem alertFate {c : Cmd} (hc : Alerting c) {t : Tree Name Text} (ht : Tame t) (mo : Moment) : AlertFate c mo t := by
  cases c with
  | mkdir d => exact .kept rfl (Tree.file?_mkdirP ..)
  | print x l =>
    by_cases hl : l = alertLog
    · obtain ⟨a, ha, rfl⟩ := hc.2 hl
      exact .written a ha (by rw [hl]; rfl)
    · refine .kept (if_neg hl) (Tree.file?_appendTo_ne _ _ _ _ ?_)
      exact fun e => hl (List.cons.inj e).1.symm
  | output l =>
    refine .kept rfl (Tree.file?_appendTo_ne _ _ _ _ ?_)
    exact fun e => hc.2 (List.cons.inj e).1.symm
  | findDelete dir suf days =>
    have hafter := Tree.file?_findDelete t mo.now dir suf days (alertLog :: logDir)
    cases hf : t.file? (alertLog :: logDir) with
    | none => exact .kept rfl (by rw [effect, hafter, hf]; rfl)
    | some f =>
      rw [hf] at hafter
      by_cases ha : Tree.aged dir suf days mo.now (alertLog :: logDir) f = true
      · refine .gone rfl f hf (by rw [effect, hafter]; simp [Option.filter, ha]) (Or.inl ?_)
        simp only [Tree.aged, Tree.olderThan, Bool.and_eq_true, decide_eq_true_eq] at ha
        exact hc.2.2 ▸ ha.2
      · exact .kept rfl (by rw [effect, hafter, hf]; simp [Option.filter, ha])
  | findGzip dir l =>
    obtain ⟨-, rfl⟩ := hc
    have hclean : Tree.hasSuffix ".log".toList (cleanLog :: logDir) = true := hasSuffix_log (by decide)
    have hne : alertLog :: logDir ≠ cleanLog :: logDir := by decide
    cases hf : t.file? (alertLog :: logDir) with
    | none =>
      refine .kept rfl ?_
      rw [hf, effect, Tree.file?_findGzip_ne _ _ _ _ _ hne (ht.writable cleanLog)]
      by_contra hg
      obtain ⟨g, hg⟩ := Option.ne_none_iff_exists'.mp hg
      rcases Tree.file?_of_gzipLarge hg with hg | ⟨p, -, hp, -⟩
      · rw [hf] at hg
        cases hg
      · have hsuf := Tree.hasSuffix_log_gzPath p
        rw [← hp] at hsuf
        exact absurd hsuf (by decide)
    | some f =>
      rcases Tree.findGzip_keeps mo.now dir (Content.block mo.tick mo.out) hclean hf with
        ⟨g, hg, rfl | ⟨e, -⟩⟩ | ⟨-, -, hsize, -, hnone⟩
      · exact .kept rfl (hg.trans hf.symm)
      · exact absurd e hne
      · exact .gone rfl f hf (hnone hne) (Or.inr (Or.inl ⟨dir, cleanLog, rfl, hsize⟩))
  | prune cwd pre keep =>
    refine .kept rfl ?_
    rw [ht.effect_prune hc mo, Tree.file?_removeAll, if_neg]
    intro hm
    obtain ⟨x, hx, hxe⟩ := List.mem_map.mp hm
    obtain ⟨log, hlog, rfl⟩ := List.mem_map.mp hc.1
    have hpre := ((t.mem_glob _ _ _).mp (Tree.mem_glob_of_mem_overflow hx)).2
    rw [(List.cons.inj hxe).1] at hpre
    exact not_stem_prefix_log log (mem_logs hlog) alertLog (by decide) hpre
  | rotate l =>
    by_cases hl : l = alertLog
    · subst hl
      cases hf : t.file? (alertLog :: logDir) with
      | none => exact .kept rfl (by rw [effect, Tree.mvFile_of_none hf])
      | some f =>
        refine .gone rfl f hf ?_ (Or.inr (Or.inr rfl))
        rw [effect, Tree.file?_mvFile mo.now hf (ht.file _), if_pos rfl]
    · exact .kept rfl (file?_rotate_ne t mo (by decide) hc (List.prefix_refl _) (Ne.symm hl))

/-! ### A rename follows its test -/

section Guarded

variable {α : Type} [Content α]

/-- A rename of a log that is oversize. -/
def Guarded (s : Step Cmd (Tree Name α)) : Prop :=
  ∀ log, s.cmd = .rotate log → holds (.oversize log) s.before = true

theorem Writing.isRotate_eq_false {ls : List Name} {c : Cmd} (h : Writing ls c) : c.isRotate = false := by
  cases c with
  | rotate => exact h.elim
  | mkdir | print | output | findDelete | findGzip | prune => rfl

theorem only_of_all {prog : List Line} (h : prog.all (fun s => s.cmds.all (!·.isRotate)) = true) :
    Only (fun c => c.isRotate = false) prog := by
  intro s hs c hc
  have := List.all_eq_true.mp (List.all_eq_true.mp h s hs) c hc
  simpa using this

/-- A script renames nothing until its last statements, which are renames with
their tests. -/
theorem IsScript.rotate_last {prog : List Line} (h : IsScript prog) :
    ∃ (p : List Line) (ls : List Name), prog = p ++ ls.map rotateStmt ∧ Only (fun c => c.isRotate = false) p := by
  cases h with
  | checkSys s current =>
    exact ⟨_, [], (List.append_nil _).symm, (checkSys_only s current).mono fun c => Writing.isRotate_eq_false⟩
  | cleanLogs cwd current => exact ⟨_, cleanedLogs, rfl, only_of_all rfl⟩
  | detectAnomaly users sockets current =>
    refine ⟨_, [anomalyLog], rfl, (only_map_cmd fun c hc => ?_)⟩
    exact (detectCmds_writing users sockets current c hc).isRotate_eq_false
  | uploadEvents data ok current =>
    exact ⟨uploadFirst current ++ (uploadRest data ok).take 6, [uploadLog], rfl, only_of_all rfl⟩

/-- **In a run without others, only what is oversize is renamed.** -/
theorem guarded_exec (w : World) {prog : List Line} (hprog : IsScript prog) {m : Machine Cmd (Tree Name α)}
    (hm : ∀ s ∈ m.past, Guarded s) : ∀ s ∈ (exec (shell α) w prog m).past, Guarded s := by
  obtain ⟨p, ls, rfl, hp⟩ := hprog.rotate_last
  have hfirst : ∀ s ∈ (exec (shell α) w p m).past, Guarded s := by
    refine exec_induct (I := fun m => ∀ s ∈ m.past, Guarded s) (shell α) w p (fun r hr c hc m hm => ?_)
      (fun _ h => h) m hm
    rw [execCmd_past, List.forall_mem_append, List.forall_mem_singleton]
    refine ⟨hm, fun log e => ?_⟩
    have hno := hp r hr c hc
    rw [show c = .rotate log from e] at hno
    cases hno
  rw [exec_append]
  refine exec_induct_stmt (I := fun m => ∀ s ∈ m.past, Guarded s) (shell α) w _ (fun r hr m hm => ?_) _ hfirst
  obtain ⟨log, -, rfl⟩ := List.mem_map.mp hr
  rw [rotateStmt, execStmt]
  by_cases ho : holds (.oversize log) m.state = true
  · rw [if_pos (show (shell α).holds (.oversize log) m.state = true from ho), List.foldl_cons, List.foldl_nil,
      execCmd_past, List.forall_mem_append, List.forall_mem_singleton]
    refine ⟨hm, fun l e => ?_⟩
    obtain rfl : log = l := Cmd.rotate.inj e
    exact ho
  · rw [if_neg (show ¬ (shell α).holds (.oversize log) m.state = true from ho)]
    exact hm

end Guarded

theorem guarded_runAll (w : World) : ∀ (rs : List Run) (m : Host), (∀ s ∈ m.past, Guarded s) →
    ∀ s ∈ (runAll w m rs).past, Guarded s
  | [], _, h => h
  | r :: rs, m, h => by
    obtain ⟨prog, hprog, heq⟩ := r.exec_eq w m
    refine guarded_runAll w rs (r.exec w m) ?_
    rw [heq]
    exact guarded_exec w hprog h

/-! ### The file and the history -/

/-- What the file holds of the alerts. -/
def Holds : Option (File Text) → List (ℕ × Text) → Prop
  | none, new => new = []
  | some f, new => new ≠ [] ∧ f.data = unlines (new.map Prod.snd) ∧ ∀ a ∈ new, a.1 ≤ f.mtime

/-- The file holds the alerts from some point on, and those before are eight
days old. -/
structure Tracked (m : Host) : Prop where
  tame : Tame m.state
  sorted : (alertsIn m.past).Pairwise fun a b => a.1 ≤ b.1
  past : ∀ a ∈ alertsIn m.past, a.1 ≤ m.now
  alert : ∀ a ∈ alertsIn m.past, Alert a.2
  split : ∃ old new, alertsIn m.past = old ++ new ∧ (∀ a ∈ old, a.1 + (maxDays + 1) * day ≤ m.now) ∧
    Holds (m.state.file? (alertLog :: logDir)) new

theorem Empty.tracked {t : Tree Name Text} (h : Empty t) (now : ℕ) : Tracked (.start t now) := by
  refine ⟨h.tame, List.Pairwise.nil, nofun, nofun, [], [], rfl, nofun, ?_⟩
  simp [Machine.start, Tree.file?, h.node alertLog, Holds]

theorem Tracked.pass {m : Host} (h : Tracked m) (w : World) : Tracked (m.pass w) := by
  have hle := m.now_le_moment w
  obtain ⟨old, new, hsplit, hold, hnew⟩ := h.split
  exact ⟨h.tame, h.sorted, fun a ha => (h.past a ha).trans hle, h.alert, old, new, hsplit,
    fun a ha => (hold a ha).trans hle, hnew⟩

theorem alertsIn_append (p q : List (Step Cmd (Tree Name Text))) : alertsIn (p ++ q) = alertsIn p ++ alertsIn q :=
  List.filterMap_append

theorem alertsIn_quiet {s : Step Cmd (Tree Name Text)} (h : alertOf s = none) : alertsIn [s] = [] := by
  simp [alertsIn, h]

theorem alertsIn_echo (l : Text) (mo : Moment) (t : Tree Name Text) :
    alertsIn [⟨.echo l alertLog, mo, t⟩] = [(mo.now, l)] := by
  simp [alertsIn, alertOf, Cmd.echo]

/-- Appending an alert. -/
theorem holds_append {t : Tree Name Text} (ht : Tame t) {new : List (ℕ × Text)}
    (h : Holds (t.file? (alertLog :: logDir)) new) (mo : Moment) (hle : ∀ a ∈ new, a.1 ≤ mo.now) (l : Text) :
    Holds ((effect (.echo l alertLog) mo t).file? (alertLog :: logDir)) (new ++ [(mo.now, l)]) := by
  have hsize : Content.size (Content.block mo.tick (l ++ ['\n']) : Text) ≠ 0 := by
    rw [LawfulContent.size_block]
    exact byteSize_ne_zero (by simp)
  have htime : ∀ a ∈ new ++ [(mo.now, l)], a.1 ≤ mo.now := by
    rw [List.forall_mem_append, List.forall_mem_singleton]
    exact ⟨hle, le_rfl⟩
  cases hf : t.file? (alertLog :: logDir) with
  | none =>
    rw [hf] at h
    obtain rfl : new = [] := h
    rw [Cmd.echo, effect, Tree.file?_appendTo_none hf, if_pos (ht.writable alertLog)]
    exact ⟨by simp, by simp [Content.block], htime⟩
  | some f =>
    rw [hf] at h
    rw [Cmd.echo, effect, Tree.file?_appendTo_self hf, if_neg hsize]
    refine ⟨by simp, ?_, htime⟩
    rw [List.map_append, unlines_append, ← h.2.1]
    simp [Content.block]

/-- **A command that leaves the file where it is keeps track.** -/
theorem Tracked.next {m : Host} (h : Tracked m) (w : World) {c : Cmd} (hc : Alerting c)
    (hsmall : AlertsSmall (m.step w c)) (hguard : Guarded (m.step w c)) : Tracked (execCmd (shell Text) w m c) := by
  have hle := m.now_le_moment w
  obtain ⟨old, new, hsplit, hold, hnew⟩ := h.split
  have hold' : ∀ a ∈ old, a.1 + (maxDays + 1) * day ≤ (m.moment w).now := fun a ha => (hold a ha).trans hle
  have hpast' : ∀ a ∈ alertsIn m.past, a.1 ≤ (m.moment w).now := fun a ha => (h.past a ha).trans hle
  have htame : Tame (execCmd (shell Text) w m c).state := h.tame.effect hc.scripted _
  -- without a new alert the history is the same
  have hquiet : alertOf (m.step w c) = none →
      (∃ old new, alertsIn m.past = old ++ new ∧ (∀ a ∈ old, a.1 + (maxDays + 1) * day ≤ (m.moment w).now) ∧
        Holds ((effect c (m.moment w) m.state).file? (alertLog :: logDir)) new) → Tracked (execCmd (shell Text) w m c) := by
    intro hq hs
    have hsame : alertsIn (execCmd (shell Text) w m c).past = alertsIn m.past := by
      rw [execCmd_past, alertsIn_append, alertsIn_quiet hq, List.append_nil]
    exact ⟨htame, hsame ▸ h.sorted, hsame ▸ hpast', hsame ▸ h.alert, hsame ▸ hs⟩
  cases alertFate hc h.tame (m.moment w) with
  | kept quiet same => exact hquiet quiet ⟨old, new, hsplit, hold', same ▸ hnew⟩
  | written l alert cmd =>
    subst cmd
    have hnow : alertsIn (execCmd (shell Text) w m (.echo l alertLog)).past =
        alertsIn m.past ++ [((m.moment w).now, l)] := by
      rw [execCmd_past, alertsIn_append]
      exact congrArg _ (alertsIn_echo l _ _)
    refine ⟨htame, ?_, ?_, ?_, old, new ++ [((m.moment w).now, l)], ?_, hold', ?_⟩
    · rw [hnow, List.pairwise_append]
      refine ⟨h.sorted, List.pairwise_singleton _ _, fun a ha b hb => ?_⟩
      rw [List.mem_singleton.mp hb]
      exact hpast' a ha
    · rw [hnow, List.forall_mem_append, List.forall_mem_singleton]
      exact ⟨hpast', le_rfl⟩
    · rw [hnow, List.forall_mem_append, List.forall_mem_singleton]
      exact ⟨h.alert, alert⟩
    · rw [hnow, hsplit, List.append_assoc]
    · exact holds_append h.tame hnew _ (fun a ha => hpast' a (hsplit ▸ List.mem_append_right _ ha)) l
  | gone quiet f before after why =>
    rw [before] at hnew
    rcases why with hage | ⟨dir, log, rfl, hsize⟩ | rfl
    · -- it was last written to eight days ago, so all of it is that old
      refine hquiet quiet ⟨old ++ new, [], by rw [hsplit, List.append_nil], ?_, by rw [after]; rfl⟩
      rw [List.forall_mem_append]
      refine ⟨hold', fun a ha => ?_⟩
      have hday : (maxDays + 1) * day ≤ (m.moment w).now - f.mtime :=
        (Nat.le_div_iff_mul_le (by decide : 0 < day)).mp hage
      have hpos : 0 < (maxDays + 1) * day := by decide
      have htime := hnew.2.2 a ha
      generalize (maxDays + 1) * day = week at hday hpos ⊢
      omega
    · exact absurd (hsmall f before) (Nat.not_le.mpr hsize)
    · obtain ⟨g, hg, hlarge⟩ := holds_oversize.mp (hguard alertLog rfl)
      exact absurd (hsmall rfl g hg) (Nat.not_le.mpr hlarge)

/-- After any number of complete runs. -/
theorem History.tracked (h : History) (hsmall : ∀ s ∈ h.machine.past, AlertsSmall s) : Tracked h.machine := by
  have hguard : ∀ s ∈ h.machine.past, Guarded s := guarded_runAll h.world h.runs _ nofun
  have hind := runAll_induct (A := Alerting)
    (I := fun m => (∀ s ∈ m.past, AlertsSmall s ∧ Guarded s) → Tracked m) IsScript.alerting h.world ?_
    (fun m ih hs => (ih hs).pass h.world) h.runs (.start h.tree h.now) (fun _ => h.empty.tracked h.now)
  · exact hind fun s hs => ⟨hsmall s hs, hguard s hs⟩
  · intro c hc m ih hs
    rw [execCmd_past, List.forall_mem_append, List.forall_mem_singleton] at hs
    exact (ih hs.1).next h.world hc hs.2.1 hs.2.2

/-! ### What is sent -/

/-- The lines of `ALERTS` are the last ten of the file. -/
theorem lines_alertsOf {ls : List Text} (hne : ls ≠ []) (hls : ∀ l ∈ ls, Alert l) :
    lines (alertsOf (some (unlines ls))) = ls.rtake 10 := by
  have hend : ls.rtake 10 ≠ [] := by
    rw [List.rtake, ne_eq, List.drop_eq_nil_iff]
    have := List.length_pos_of_ne_nil hne
    omega
  obtain ⟨ks, l, hsplit⟩ := (List.eq_nil_or_concat (ls.rtake 10)).resolve_left hend
  rw [List.concat_eq_append] at hsplit
  have hmem : ∀ k ∈ ks ++ [l], Alert k := fun k hk => hls k (List.mem_of_mem_drop (hsplit ▸ hk : k ∈ ls.rtake 10))
  have hl := hmem l (by simp)
  have hlne : l ≠ [] := by
    rintro rfl
    cases hl.head
  have hnul : '\x00' ∉ unlines (ks ++ [l]) := by
    intro hc
    simp only [unlines, List.mem_flatMap, List.mem_append] at hc
    obtain ⟨k, hk, hc | hc⟩ := hc
    · exact (hmem k (List.mem_append.mpr hk)).nul hc
    · exact absurd hc (by decide)
  have halerts : alertsOf (some (unlines ls)) = unlines ks ++ l := by
    have htail : tailLines 10 (unlines ls) = unlines (ks ++ [l]) :=
      (tailLines_unlines 10 ls fun k hk => (hls k hk).newline).trans (congrArg unlines hsplit)
    have heq : alertsOf (some (unlines ls)) = capture (tailLines 10 (unlines ls)) := rfl
    rw [heq, htail, capture, filter_nul hnul]
    exact chomp_unlines_append ks hl.newline hlne
  rw [halerts, hsplit]
  exact lines_unlines_append ks l (fun k hk => (hmem k (List.mem_append_left _ hk)).newline) hl.newline hlne

theorem alertsOf_ne_none {ls : List Text} (hne : ls ≠ []) (hls : ∀ l ∈ ls, Alert l) :
    alertsOf (some (unlines ls)) ≠ "No alerts found".toList := by
  intro h
  have hlines := lines_alertsOf hne hls
  rw [h] at hlines
  have hmem : "No alerts found".toList ∈ ls := by
    refine List.mem_of_mem_drop (i := ls.length - 10) ?_
    rw [← List.rtake, ← hlines]
    decide
  exact absurd (hls _ hmem).head (by decide)

theorem uploadFirst_only (current : ℕ) : Only (Writing [uploadLog]) (uploadFirst current) := by
  refine only_map_cmd (l := [.mkdir logDir, .echo _ uploadLog]) ?_
  rw [List.forall_mem_cons, List.forall_mem_singleton]
  exact ⟨rfl, List.mem_singleton_self _⟩

theorem uploadedAlerts_eq (w : World) (m : Host) (c : Collected) :
    uploadedAlerts w m c = alertsOf ((m.state.file? (alertLog :: logDir)).map File.data) := by
  rw [uploadedAlerts, collected, file?_writing (uploadFirst_only _) (by decide)]

/-- The alerts of the last seven days are the last lines of the file. -/
theorem Tracked.recent_suffix {m : Host} (h : Tracked m) {time : ℕ} (htime : m.now ≤ time) {old new : List (ℕ × Text)}
    (hsplit : alertsIn m.past = old ++ new) (hold : ∀ a ∈ old, a.1 + (maxDays + 1) * day ≤ m.now) :
    recentAlerts m.past time <:+ new.map Prod.snd := by
  have hnone : old.filter (fun a => decide (time ≤ a.1 + maxDays * day)) = [] := by
    rw [List.filter_eq_nil_iff]
    intro a ha
    have hage := hold a ha
    have hday : (maxDays + 1) * day = maxDays * day + day := Nat.succ_mul _ _
    have hpos : 0 < day := by decide
    rw [decide_eq_true_eq]
    omega
  rw [recentAlerts, hsplit, List.filter_append, hnone, List.nil_append]
  have hsorted : new.Pairwise fun a b => a.1 ≤ b.1 := (List.pairwise_append.mp (hsplit ▸ h.sorted)).2.1
  refine (filter_suffix (fun a b hab ha => ?_) new hsorted).map Prod.snd
  rw [decide_eq_true_eq] at ha ⊢
  omega

/-- A busy system: the CPU is over its threshold. -/
def busy : Status where
  cpu := .number 95 []
  memTotal := "7976".toList
  memUsed := "3191".toList
  memFree := "2104".toList
  mem := .number 40 []
  load := "3.91 3.80 3.72".toList
  processes := "214".toList
  uptime := "up 3 weeks".toList
  df := []
  df_nul := by decide

theorem now_runAll_of_delay {w : World} (hw : ∀ k, w.delay k = 0) (rs : List Run) (m : Host) :
    (runAll w m rs).now = m.now := by
  have hmoment : ∀ m' : Host, (m'.moment w).now = m'.now := fun m' => by simp [Machine.moment, hw]
  exact runAll_induct (I := fun m' => m'.now = m.now) IsScript.only w (fun _ _ m' h => (hmoment m').trans h)
    (fun m' h => (hmoment m').trans h) rs m rfl

theorem Writing.alertsSmall {ls : List Name} {s : Step Cmd (Tree Name Text)} (h : Writing ls s.cmd) : AlertsSmall s := by
  unfold AlertsSmall
  split
  · rename_i hc
    rw [hc] at h
    exact h.elim
  · rename_i hc
    rw [hc] at h
    exact h.elim
  · exact trivial

/-- The size of `system_alerts.log`. -/
def alertSize (t : Tree Name Text) : ℕ := ((t.file? (alertLog :: logDir)).map File.size).getD 0

theorem alertSize_of_some {t : Tree Name Text} {f : File Text} (h : t.file? (alertLog :: logDir) = some f) :
    alertSize t = f.size := by
  rw [alertSize, h]
  rfl

theorem alertSize_appendTo {t : Tree Name Text} (ht : Tame t) (now k : ℕ) (x : Text) :
    alertSize (t.appendTo now (alertLog :: logDir) (Content.block k x)) = alertSize t + byteSize x := by
  have hsize : Content.size (Content.block k x : Text) = byteSize x := LawfulContent.size_block k x
  cases hf : t.file? (alertLog :: logDir) with
  | none =>
    have hafter : (t.appendTo now (alertLog :: logDir) (Content.block k x)).file? (alertLog :: logDir) =
        some ⟨Content.block k x, now⟩ := by
      rw [Tree.file?_appendTo_none hf, if_pos (ht.writable alertLog)]
    rw [alertSize_of_some hafter, alertSize, hf, File.size, hsize]
    exact (Nat.zero_add _).symm
  | some f =>
    have hafter : (t.appendTo now (alertLog :: logDir) (Content.block k x)).file? (alertLog :: logDir) = _ :=
      Tree.file?_appendTo_self hf
    rw [alertSize_of_some hafter, alertSize_of_some hf]
    by_cases hx : byteSize x = 0
    · rw [if_pos (hsize.trans hx), hx, Nat.add_zero]
    · rw [if_neg (hsize ▸ hx), File.size, LawfulContent.size_append, hsize]
      rfl

/-- Writing does not make it smaller. -/
theorem alertSize_writing (w : World) {ls : List Name} (hls : ls ⊆ logs) (cs : List Cmd)
    (hcs : ∀ c ∈ cs, Writing ls c) {m : Host} (ht : Tame m.state) :
    Tame (cs.foldl (execCmd (shell Text) w) m).state ∧
      alertSize m.state ≤ alertSize (cs.foldl (execCmd (shell Text) w) m).state := by
  refine foldl_execCmd_induct (I := fun m' => Tame m'.state ∧ alertSize m.state ≤ alertSize m'.state) (shell Text) w cs
    (fun c hc m' ih => ⟨ih.1.effect ((hcs c hc).scripted hls) _, ih.2.trans ?_⟩) m ⟨ht, le_rfl⟩
  have hother : ∀ {t' : Tree Name Text}, t'.file? (alertLog :: logDir) = m'.state.file? (alertLog :: logDir) →
      alertSize m'.state ≤ alertSize t' := fun h => by rw [alertSize, alertSize, h]
  have hprint : ∀ (l : Name) (x : Text), alertSize m'.state ≤
      alertSize (m'.state.appendTo (m'.moment w).now (l :: logDir) (Content.block (m'.moment w).tick x)) := by
    intro l x
    by_cases hl : l = alertLog
    · rw [hl, alertSize_appendTo ih.1]
      exact Nat.le_add_right _ _
    · exact hother (Tree.file?_appendTo_ne _ _ _ _ fun e => hl (List.cons.inj e).1.symm)
  have hc := hcs c hc
  cases c with
  | mkdir d => exact hother (Tree.file?_mkdirP ..)
  | print x l => exact hprint l x
  | output l => exact hprint l _
  | findDelete | findGzip | prune | rotate => exact hc.elim

/-- The line of an alert has 48 bytes and more. -/
theorem byteSize_busyAlert (current : ℕ) : 48 ≤ byteSize (figureAlert current "CPU使用率" busy.cpu ++ ['\n']) := by
  simp only [figureAlert, byteSize_append]
  have h1 : byteSize "] 警告: ".toList = 10 := by decide
  have h2 : byteSize "CPU使用率".toList = 12 := by decide
  have h3 : byteSize "%) 超过阈值 (".toList = 17 := by decide
  have h4 : byteSize "[".toList + byteSize " (".toList + byteSize "%)".toList + byteSize ['\n'] = 6 := by decide
  have h5 : byteSize (decimal loadThreshold) + byteSize busy.cpu.text = 4 := by decide
  omega

theorem checkSysCmds_busy (current : ℕ) : checkSysCmds busy current =
    statusCmds busy current ++ .echo (figureAlert current "CPU使用率" busy.cpu) alertLog ::
      [.echo (closing "系统状态检查完成") statusLog, .echo [] statusLog] := by
  have hcpu : busy.cpu.exceeds loadThreshold = true := by decide
  have hmem : ¬ busy.mem.exceeds loadThreshold = true := by decide
  have hdisk : diskAlerts busy.df = [] := by decide
  rw [checkSysCmds, alertLines, if_pos hcpu, if_neg hmem, hdisk]
  simp

/-- A check of a busy system makes the file 48 bytes longer at least. -/
theorem alertSize_checkSys (w : World) {m : Host} (ht : Tame m.state) :
    Tame ((Run.checkSys busy).exec w m).state ∧
      alertSize m.state + 48 ≤ alertSize ((Run.checkSys busy).exec w m).state := by
  obtain ⟨current, hcur⟩ : ∃ n, n = (m.moment w).now := ⟨_, rfl⟩
  have hwriting : ∀ c ∈ checkSysCmds busy current, Writing [statusLog, alertLog] c := fun c hc =>
    checkSys_only busy current _ (List.mem_map_of_mem hc) c (List.mem_singleton_self c)
  have hls : [statusLog, alertLog] ⊆ logs := by decide
  rw [Run.exec, checkSys, exec_map_cmd, ← hcur, checkSysCmds_busy, List.foldl_append, List.foldl_cons]
  rw [checkSysCmds_busy] at hwriting
  obtain ⟨ht₁, hle₁⟩ := alertSize_writing w hls _ (fun c hc => hwriting c (List.mem_append_left _ hc)) ht
  obtain ⟨m₁, hm₁⟩ : ∃ m₁, m₁ = (statusCmds busy current).foldl (execCmd (shell Text) w) m := ⟨_, rfl⟩
  rw [← hm₁] at ht₁ hle₁ ⊢
  obtain ⟨m₂, hm₂⟩ : ∃ m₂, m₂ = execCmd (shell Text) w m₁ (.echo (figureAlert current "CPU使用率" busy.cpu) alertLog) :=
    ⟨_, rfl⟩
  have hsize : alertSize m₂.state = alertSize m₁.state +
      byteSize (figureAlert current "CPU使用率" busy.cpu ++ ['\n']) := by
    rw [hm₂, execCmd_shell]
    exact alertSize_appendTo ht₁ _ _ _
  have ht₂ : Tame m₂.state := by
    have halert : Scripted (.echo (figureAlert current "CPU使用率" busy.cpu) alertLog) := (by decide : alertLog ∈ logs)
    exact hm₂ ▸ ht₁.effect halert _
  rw [← hm₂]
  obtain ⟨ht₃, hle₃⟩ := alertSize_writing w hls _
    (fun c hc => hwriting c (List.mem_append_right _ (List.mem_cons_of_mem _ hc))) ht₂
  have hbusy := byteSize_busyAlert current
  exact ⟨ht₃, by omega⟩

theorem alertSize_checks (w : World) : ∀ (n : ℕ) (m : Host), Tame m.state →
    Tame (runAll w m (List.replicate n (.checkSys busy))).state ∧
      alertSize m.state + 48 * n ≤ alertSize (runAll w m (List.replicate n (.checkSys busy))).state
  | 0, _, ht => ⟨ht, le_rfl⟩
  | n + 1, m, ht => by
    obtain ⟨ht', hle⟩ := alertSize_checkSys w ht
    obtain ⟨ht'', hle'⟩ := alertSize_checks w n _ ht'
    rw [List.replicate_succ, runAll, List.foldl_cons, ← runAll]
    exact ⟨ht'', by omega⟩

/-- `clean_logs.sh` moves an oversize file away. -/
theorem cleanLogs_moves (w : World) (cwd : Path) (current : ℕ) {m : Host} (ht : Tame m.state)
    (hsize : maxSize < alertSize m.state) :
    (exec (shell Text) w (cleanLogs cwd current) m).state.file? (alertLog :: logDir) = none := by
  obtain ⟨p, hp⟩ : ∃ p, p = cleanFirst current ++ [pruneStmt cwd] ++ cleanReport := ⟨_, rfl⟩
  have honly : Only Cleaning p := by
    intro s hs
    refine cleanLogs_only cwd current s ?_
    rw [cleanLogs, ← hp]
    exact List.mem_append_left _ hs
  obtain ⟨ht', hlarge⟩ : Tame (exec (shell Text) w p m).state ∧
      ∀ f, (exec (shell Text) w p m).state.file? (alertLog :: logDir) = some f → maxSize < f.size := by
    refine exec_induct (I := fun m => Tame m.state ∧ ∀ f, m.state.file? (alertLog :: logDir) = some f → maxSize < f.size)
      (shell Text) w p (fun s hs c hc m ih => ?_) (fun _ h => h) m ⟨ht, fun f hf => alertSize_of_some hf ▸ hsize⟩
    have hc := honly s hs c hc
    refine ⟨ih.1.effect hc.scripted _, fun f hf => ?_⟩
    cases alertFate hc.alerting ih.1 (m.moment w) with
    | kept quiet same => exact ih.2 f (same ▸ hf)
    | written l alert cmd =>
      subst cmd
      exact absurd hc (by decide : alertLog ≠ cleanLog)
    | gone quiet g before after why =>
      rw [execCmd_shell, after] at hf
      cases hf
  obtain ⟨n, -, -, hfile⟩ := file?_rotates w (by decide : alertLog ∈ cleanedLogs) cleanedLogs _ ht'.orderly
    (List.Subset.refl _) (by decide) (by decide)
  rw [cleanLogs, ← hp, exec_append, hfile alertLog (List.prefix_refl _), renamedFiles]
  split
  case isTrue => rw [if_pos rfl]
  case isFalse ho =>
    by_contra hf
    obtain ⟨f, hf⟩ := Option.ne_none_iff_exists'.mp hf
    exact ho (holds_oversize.mpr ⟨f, hf, hlarge f hf⟩)

/-- A file of alerts has a history. -/
theorem History.alertsIn_ne_nil (h : History) (hf : (h.machine.state.file? (alertLog :: logDir)).isSome = true) :
    alertsIn h.machine.past ≠ [] := by
  refine (runAll_induct (A := Alerting) (I := fun m => Tame m.state ∧
    ((m.state.file? (alertLog :: logDir)).isSome = true → alertsIn m.past ≠ [])) IsScript.alerting h.world ?_
    (fun _ hm => hm) h.runs _ ⟨h.empty.tame, fun hs => ?_⟩).2 hf
  · rintro c hc m ⟨ht, ih⟩
    refine ⟨ht.effect hc.scripted _, fun hs => ?_⟩
    rw [execCmd_past, alertsIn_append]
    cases alertFate hc ht (m.moment h.world) with
    | kept quiet same => exact List.append_ne_nil_of_left_ne_nil (ih (same ▸ hs)) _
    | written l alert cmd =>
      subst cmd
      exact List.append_ne_nil_of_right_ne_nil _ (by rw [Machine.step, alertsIn_echo]; exact List.cons_ne_nil _ _)
    | gone quiet f before after why =>
      rw [execCmd_shell, after] at hs
      cases hs
  · simp [Machine.start, Tree.file?, h.empty.node alertLog] at hs

end Croner
end OpsScripts
