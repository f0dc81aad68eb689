/-
# The four scripts of `croner`

`check_sys.sh`, `clean_logs.sh`, `detect_anomaly.sh` and `upload_events.sh` as
programs of atomic commands. A command appends to a log of `/var/log/cron`,
deletes by age, compresses, prunes or renames; the tests are `[ -d dir ]` and
the size test in front of a rename. What a program prints that a script runs
is either computed from what it is given, or left to the world.

`CURRENT_TIME` is an argument of each script: a complete run (`Run.exec`)
passes the clock reading after its first command, an interleaving may pass
any.

Key definitions: `Cmd`, `Test`, `effect`, `checkSys`, `cleanLogs`,
`detectAnomaly`, `uploadEvents`, `Run.exec`.
Key theorems: `Scripted`, `Run.exec_eq`: every run is a script, and every
command of a script is of one of seven kinds.
-/
import OpsScripts.Process
import OpsScripts.Xargs
import OpsScripts.Croner.DiskAlerts
import OpsScripts.Croner.Connections
import OpsScripts.Croner.Upload

namespace OpsScripts
namespace Croner

/-! ### Directories and logs -/

/-- `/var/log`. -/
def varLog : Path := ["log".toList, "var".toList]

/-- `LOG_DIR`. -/
def logDir : Path := "cron".toList :: varLog

/-- `LOG_FILE`. -/
def statusLog : Name := "system_status.log".toList

/-- `ALERT_FILE`. -/
def alertLog : Name := "system_alerts.log".toList

/-- `CLEAN_LOG`. -/
def cleanLog : Name := "clean_logs.log".toList

/-- `ANOMALY_LOG`. -/
def anomalyLog : Name := "anomaly_detection.log".toList

/-- `UPLOAD_LOG`. -/
def uploadLog : Name := "event_upload.log".toList

/-- The logs that `clean_logs.sh` renames, and whose renamed files it prunes. -/
def cleanedLogs : List Name := [statusLog, alertLog, cleanLog]

/-- The logs of all scripts. -/
def logs : List Name := cleanedLogs ++ [anomalyLog, uploadLog]

/-- `LOG_DIRS`. -/
def logDirs : List Path := [varLog, logDir]

/-- `MAX_DAYS`. -/
def maxDays : ℕ := 7

/-- The endings of the names that age out. -/
def agedSuffixes : List Text := [".log".toList, ".gz".toList, ".old".toList]

/-- `<log>.`: the names of its renamed files begin with it. -/
def stem (log : Name) : Name := log ++ ['.']

/-- `<log>.$(date +%Y%m%d%H%M%S)`. -/
def rotated (log : Name) (now : ℕ) : Name := log ++ '.' :: dateStamp now

/-- The size above which a log is renamed. -/
def maxSize : ℕ := 1048576

/-! ### Commands and tests -/

/-- A command of the scripts. Logs are entries of `LOG_DIR`. -/
inductive Cmd
  /-- `mkdir -p d` -/
  | mkdir (d : Path)
  /-- a program whose output `t` is known, `>> log` -/
  | print (t : Text) (log : Name)
  /-- any other program, `>> log` -/
  | output (log : Name)
  /-- `find dir -name "*suf" -type f -mtime +days -delete` -/
  | findDelete (dir : Path) (suf : Text) (days : ℕ)
  /-- `find dir -name "*.log" -type f -size +100M -not -name "*.gz" -exec gzip {} \; >> log 2>&1` -/
  | findGzip (dir : Path) (log : Name)
  /-- `ls -t $LOG_DIR/pre* 2>/dev/null | tail -n +(keep+1) | xargs -r rm -f` -/
  | prune (cwd : Path) (pre : Name) (keep : ℕ)
  /-- `mv log log.$(date +%Y%m%d%H%M%S)` -/
  | rotate (log : Name)

/-- `echo "t" >> log`, for a text that is no option. -/
def Cmd.echo (t : Text) (log : Name) : Cmd := .print (t ++ ['\n']) log

/-- A rename. -/
def Cmd.isRotate : Cmd → Bool
  | rotate _ => true
  | _ => false

/-- A test of the scripts. -/
inductive Test
  /-- `[ -d d ]` -/
  | isDir (d : Path)
  /-- `[ -f log ] && [ $(stat -c %s log) -gt 1048576 ]` -/
  | oversize (log : Name)

section Effect

variable {α : Type} [Content α]

def effect : Cmd → Moment → Tree Name α → Tree Name α
  | .mkdir d, mo, t => t.mkdirP mo.now d
  | .print x log, mo, t => t.appendTo mo.now (log :: logDir) (Content.block mo.tick x)
  | .output log, mo, t => t.appendTo mo.now (log :: logDir) (Content.block mo.tick mo.out)
  | .findDelete dir suf days, mo, t => t.findDelete mo.now dir suf days
  | .findGzip dir log, mo, t => t.findGzip mo.now dir (log :: logDir) (Content.block mo.tick mo.out)
  | .prune cwd pre keep, mo, t => t.prune mo.now cwd logDir pre keep
  | .rotate log, mo, t => t.mvFile mo.now (log :: logDir) (rotated log mo.now :: logDir)

def holds : Test → Tree Name α → Bool
  | .isDir d, t => t.isDir d
  | .oversize log, t => (t.file? (log :: logDir)).any fun f => decide (maxSize < f.size)

/-- What the commands do, for logs with contents `α`. -/
def shell (α : Type) [Content α] : Semantics Cmd Test (Tree Name α) := ⟨effect, holds⟩

theorem holds_oversize {log : Name} {t : Tree Name α} :
    holds (.oversize log) t = true ↔ ∃ f, t.file? (log :: logDir) = some f ∧ maxSize < f.size := by
  simp only [holds, Option.any_eq_true, decide_eq_true_eq]

@[simp] theorem after_mk (c : Cmd) (mo : Moment) (t : Tree Name α) :
    Step.after (shell α) ⟨c, mo, t⟩ = effect c mo t := rfl

theorem execCmd_shell (w : World) (m : Machine Cmd (Tree Name α)) (c : Cmd) :
    (execCmd (shell α) w m c).state = effect c (m.moment w) m.state := rfl

end Effect

/-- A statement of the scripts. -/
abbrev Line := Stmt Cmd Test

/-- The rename of a log at the end of a script. -/
def rotateStmt (log : Name) : Line := .ite (.oversize log) [.rotate log] []

/-! ### `clean_logs.sh` -/

/-- The line that opens a log entry. -/
def opening (title : String) (current : ℕ) : Text :=
  "========== ".toList ++ title.toList ++ " - ".toList ++ dateTime current ++ " ==========".toList

/-- The line that closes one. -/
def closing (title : String) : Text := "========== ".toList ++ title.toList ++ " ==========".toList

/-- The age deletion in one of the directories. -/
def ageStmt (dir : Path) : Line :=
  .ite (.isDir dir)
    (.echo ("清理目录: ".toList ++ pathText dir) cleanLog ::
      agedSuffixes.flatMap fun suf => [.output cleanLog, .findDelete dir suf maxDays])
    [.echo ("目录不存在: ".toList ++ pathText dir) cleanLog]

/-- The compression in one of the directories. -/
def compressStmt (dir : Path) : Line :=
  .ite (.isDir dir)
    [.echo ("压缩大文件: ".toList ++ pathText dir) cleanLog, .findGzip dir cleanLog] []

/-- The pruning of the three families. -/
def pruneStmt (cwd : Path) : Line :=
  .ite (.isDir logDir) (cleanedLogs.map fun log => .prune cwd (stem log) 10) []

/-- Up to the end of the compression. -/
def cleanFirst (current : ℕ) : List Line :=
  [.cmd (.mkdir logDir), .cmd (.echo (opening "日志清理开始" current) cleanLog)] ++
    logDirs.map ageStmt ++ logDirs.map compressStmt

/-- After the pruning, up to the renames. -/
def cleanReport : List Line :=
  [.cmd (.echo "清理后的磁盘使用情况:".toList cleanLog), .cmd (.output cleanLog),
    .cmd (.echo (closing "日志清理完成") cleanLog), .cmd (.echo [] cleanLog)]

/-- `clean_logs.sh`, run in `cwd`. -/
def cleanLogs (cwd : Path) (current : ℕ) : List Line :=
  cleanFirst current ++ [pruneStmt cwd] ++ cleanReport ++ cleanedLogs.map rotateStmt

/-! ### `check_sys.sh` -/

/-- `(( $(echo "$r > $k" | bc -l) ))`; without a figure `bc` prints nothing. -/
def Reading.exceeds (k : ℕ) : Reading → Bool
  | number n frac => decide (k < n) || (decide (n = k) && frac.any (·.val ≠ 0))
  | _ => false

/-- What the programs say that `check_sys.sh` asks. `df` is for the alerts. -/
structure Status where
  cpu : Reading
  memTotal : Text
  memUsed : Text
  memFree : Text
  mem : Reading
  load : Text
  processes : Text
  uptime : Text
  df : Text
  df_nul : '\x00' ∉ df

/-- `CPU_THRESHOLD` and `MEM_THRESHOLD`. -/
def loadThreshold : ℕ := 80

/-- The alert for a figure over its threshold. -/
def figureAlert (current : ℕ) (what : String) (r : Reading) : Text :=
  "[".toList ++ dateTime current ++ "] 警告: ".toList ++ what.toList ++ " (".toList ++ r.text ++
    "%) 超过阈值 (".toList ++ decimal loadThreshold ++ "%)".toList

/-- The lines that go to `system_alerts.log`. -/
def alertLines (s : Status) (current : ℕ) : List Text :=
  (if s.cpu.exceeds loadThreshold then [figureAlert current "CPU使用率" s.cpu] else []) ++
    (if s.mem.exceeds loadThreshold then [figureAlert current "内存使用率" s.mem] else []) ++
    (diskAlerts s.df).map (diskAlertLine (dateTime current))

/-- The figures that go to `system_status.log`. -/
def statusCmds (s : Status) (current : ℕ) : List Cmd :=
  [.mkdir logDir, .echo (opening "系统状态检查" current) statusLog,
    .echo ("CPU使用率: ".toList ++ s.cpu.text ++ ['%']) statusLog,
    .echo ("内存总量: ".toList ++ s.memTotal ++ " MB".toList) statusLog,
    .echo ("内存使用: ".toList ++ s.memUsed ++ " MB".toList) statusLog,
    .echo ("内存剩余: ".toList ++ s.memFree ++ " MB".toList) statusLog,
    .echo ("内存使用率: ".toList ++ s.mem.text ++ ['%']) statusLog,
    .echo "磁盘使用情况:".toList statusLog, .output statusLog,
    .echo ("系统负载 (1分钟, 5分钟, 15分钟): ".toList ++ s.load) statusLog,
    .echo ("当前进程数量: ".toList ++ s.processes) statusLog,
    .echo ("系统运行时间: ".toList ++ s.uptime) statusLog]

/-- The commands of `check_sys.sh`. -/
def checkSysCmds (s : Status) (current : ℕ) : List Cmd :=
  statusCmds s current ++ (alertLines s current).map (Cmd.echo · alertLog) ++
    [Cmd.echo (closing "系统状态检查完成") statusLog, Cmd.echo [] statusLog]

/-- `check_sys.sh`. -/
def checkSys (s : Status) (current : ℕ) : List Line := (checkSysCmds s current).map Stmt.cmd

/-! ### `detect_anomaly.sh` -/

/-- Processes and logins. -/
def detectFirst (current : ℕ) : List Cmd :=
  [.mkdir logDir, .echo (opening "系统异常检测" current) anomalyLog,
    .echo "CPU使用率异常的进程:".toList anomalyLog, .output anomalyLog,
    .echo "内存使用率异常的进程:".toList anomalyLog, .output anomalyLog,
    .echo "网络连接状态统计:".toList anomalyLog, .output anomalyLog,
    .echo "最近的登录尝试:".toList anomalyLog, .output anomalyLog,
    .echo "失败的登录尝试:".toList anomalyLog, .output anomalyLog, .output anomalyLog,
    .echo "可疑的进程:".toList anomalyLog, .output anomalyLog,
    .echo "所有用户的定时任务:".toList anomalyLog]

/-- Services, connections and large files. -/
def detectLast (sockets : List Socket) : List Cmd :=
  [.echo "系统启动项:".toList anomalyLog, .output anomalyLog, .output anomalyLog,
    .echo "异常的网络连接:".toList anomalyLog,
    .print (abnormalConnections (netstatText sockets)) anomalyLog,
    .echo "最近创建的大文件 (>100MB):".toList anomalyLog, .output anomalyLog,
    .echo (closing "系统异常检测完成") anomalyLog, .echo [] anomalyLog]

/-- The commands of `detect_anomaly.sh` up to the rename, for a system with
`users` users and those sockets. -/
def detectCmds (users : ℕ) (sockets : List Socket) (current : ℕ) : List Cmd :=
  detectFirst current ++ List.replicate users (Cmd.output anomalyLog) ++ detectLast sockets

/-- `detect_anomaly.sh`. -/
def detectAnomaly (users : ℕ) (sockets : List Socket) (current : ℕ) : List Line :=
  (detectCmds users sockets current).map Stmt.cmd ++ [rotateStmt anomalyLog]

/-! ### `upload_events.sh` -/

/-- Up to where the system is asked. -/
def uploadFirst (current : ℕ) : List Line :=
  [.cmd (.mkdir logDir), .cmd (.echo (opening "事件上传开始" current) uploadLog)]

/-- From where `JSON_DATA` is made. `ok` is whether `curl` succeeds. -/
def uploadRest (data : Text) (ok : Bool) : List Line :=
  [.cmd (.echo "准备上传的数据:".toList uploadLog), .cmd (.echo data uploadLog),
    .cmd (.echo (if ok then "上传成功! 响应:".toList else "上传失败! 错误:".toList) uploadLog),
    .cmd (.output uploadLog), .cmd (.echo (closing "事件上传完成") uploadLog), .cmd (.echo [] uploadLog),
    rotateStmt uploadLog]

/-- `upload_events.sh`. -/
def uploadEvents (data : Text) (ok : Bool) (current : ℕ) : List Line :=
  uploadFirst current ++ uploadRest data ok

/-! ### Complete runs -/

/-- A complete run, and what it meets. -/
inductive Run
  | checkSys (s : Status)
  | cleanLogs (cwd : Path)
  | detectAnomaly (users : ℕ) (sockets : List Socket)
  | uploadEvents (jq : Jq) (c : Collected) (ok : Bool)

/-- A machine with logs that hold text. -/
abbrev Host := Machine Cmd (Tree Name Text)

/-- What `upload_events.sh` has collected when the log directory is as in `m`. -/
def collected (m : Host) (c : Collected) : Collected :=
  { c with timestamp := m.now / second, alertLog := (m.state.file? (alertLog :: logDir)).map File.data }

/-- A run from its start to its end, with nobody else acting. -/
def Run.exec (w : World) (m : Host) : Run → Host
  | .checkSys s => OpsScripts.exec (shell Text) w (Croner.checkSys s (m.moment w).now) m
  | .cleanLogs cwd => OpsScripts.exec (shell Text) w (Croner.cleanLogs cwd (m.moment w).now) m
  | .detectAnomaly users sockets =>
    OpsScripts.exec (shell Text) w (Croner.detectAnomaly users sockets (m.moment w).now) m
  | .uploadEvents jq c ok =>
    let m' := OpsScripts.exec (shell Text) w (uploadFirst (m.moment w).now) m
    OpsScripts.exec (shell Text) w (uploadRest (jsonData jq (collected m' c)) ok) m'

/-- Runs one after another. -/
def runAll (w : World) (m : Host) (rs : List Run) : Host := rs.foldl (Run.exec w) m

/-! ### What the scripts are made of -/

/-- One of the four scripts. -/
inductive IsScript : List Line → Prop
  | checkSys (s : Status) (current : ℕ) : IsScript (checkSys s current)
  | cleanLogs (cwd : Path) (current : ℕ) : IsScript (cleanLogs cwd current)
  | detectAnomaly (users : ℕ) (sockets : List Socket) (current : ℕ) :
    IsScript (detectAnomaly users sockets current)
  | uploadEvents (data : Text) (ok : Bool) (current : ℕ) : IsScript (uploadEvents data ok current)

/-- A complete run is the run of a script. -/
theorem Run.exec_eq (w : World) (m : Host) (r : Run) :
    ∃ prog, IsScript prog ∧ r.exec w m = OpsScripts.exec (shell Text) w prog m := by
  cases r with
  | checkSys s => exact ⟨_, .checkSys s _, rfl⟩
  | cleanLogs cwd => exact ⟨_, .cleanLogs cwd _, rfl⟩
  | detectAnomaly users sockets => exact ⟨_, .detectAnomaly users sockets _, rfl⟩
  | uploadEvents jq c ok => exact ⟨_, .uploadEvents _ ok _, (exec_append ..).symm⟩

/-- The commands that occur in the scripts. -/
def Scripted : Cmd → Prop
  | .mkdir d => d = logDir
  | .print _ log => log ∈ logs
  | .output log => log ∈ logs
  | .findDelete dir suf days => dir ∈ logDirs ∧ suf ∈ agedSuffixes ∧ days = maxDays
  | .findGzip dir log => dir ∈ logDirs ∧ log = cleanLog
  | .prune _ pre keep => pre ∈ cleanedLogs.map stem ∧ keep = 10
  | .rotate log => log ∈ logs

/-- Those that write to one of the logs `ls`. -/
def Writing (ls : List Name) : Cmd → Prop
  | .mkdir d => d = logDir
  | .print _ log => log ∈ ls
  | .output log => log ∈ ls
  | _ => False

/-- Those that write to `log` or rename it. -/
def Logging (log : Name) (c : Cmd) : Prop := Writing [log] c ∨ c = .rotate log

/-- Those of `clean_logs.sh`. -/
def Cleaning : Cmd → Prop
  | .print _ log => log = cleanLog
  | .output log => log = cleanLog
  | .rotate log => log ∈ cleanedLogs
  | c => Scripted c

theorem Writing.scripted {ls : List Name} (hl : ls ⊆ logs) {c : Cmd} (h : Writing ls c) : Scripted c := by
  cases c with
  | mkdir d => exact h
  | print t log => exact hl h
  | output log => exact hl h
  | findDelete | findGzip | prune | rotate => exact h.elim

theorem Logging.scripted {log : Name} (hl : log ∈ logs) {c : Cmd} (h : Logging log c) : Scripted c := by
  rcases h with h | rfl
  · exact h.scripted (by simpa using hl)
  · exact hl

theorem Cleaning.scripted {c : Cmd} (h : Cleaning c) : Scripted c := by
  have hlog : cleanLog ∈ logs := by decide
  cases c with
  | mkdir | findDelete | findGzip | prune => exact h
  | print t log => exact h ▸ hlog
  | output log => exact h ▸ hlog
  | rotate log => exact List.mem_append_left _ h

/-- Every command of a program is of the kind `A`. -/
def Only (A : Cmd → Prop) (prog : List Line) : Prop := ∀ s ∈ prog, ∀ c ∈ s.cmds, A c

theorem Only.mono {A B : Cmd → Prop} {prog : List Line} (h : Only A prog) (hAB : ∀ c, A c → B c) :
    Only B prog :=
  fun s hs c hc => hAB c (h s hs c hc)

theorem Only.append {A : Cmd → Prop} {p q : List Line} (hp : Only A p) (hq : Only A q) : Only A (p ++ q) :=
  fun s hs => (List.mem_append.mp hs).elim (hp s) (hq s)

theorem only_map_cmd {A : Cmd → Prop} {l : List Cmd} (h : ∀ c ∈ l, A c) : Only A (l.map Stmt.cmd) := by
  intro s hs c hc
  obtain ⟨d, hd, rfl⟩ := List.mem_map.mp hs
  rw [Stmt.cmds, List.mem_singleton] at hc
  exact hc ▸ h d hd

theorem only_rotateStmt {A : Cmd → Prop} {log : Name} (h : A (.rotate log)) : Only A [rotateStmt log] := by
  intro s hs c hc
  rw [List.mem_singleton] at hs
  subst hs
  rw [rotateStmt, Stmt.cmds, List.append_nil, List.mem_singleton] at hc
  exact hc ▸ h

/-- `check_sys.sh` writes to `system_status.log`, and its alerts to
`system_alerts.log`. -/
theorem of_mem_checkSysCmds {s : Status} {current : ℕ} {c : Cmd} (hc : c ∈ checkSysCmds s current) :
    Writing [statusLog] c ∨ ∃ l ∈ alertLines s current, c = .echo l alertLog := by
  have hstatus : statusLog ∈ [statusLog] := List.mem_singleton_self _
  simp only [checkSysCmds, statusCmds, List.mem_append, List.mem_cons, List.not_mem_nil, or_false,
    List.mem_map] at hc
  rcases hc with (h | ⟨l, hl, rfl⟩) | rfl | rfl
  · rcases h with rfl | rfl | rfl | rfl | rfl | rfl | rfl | rfl | rfl | rfl | rfl | rfl
    · exact Or.inl rfl
    all_goals exact Or.inl hstatus
  · exact Or.inr ⟨l, hl, rfl⟩
  · exact Or.inl hstatus
  · exact Or.inl hstatus

theorem Writing.mono {ls ks : List Name} (h : ls ⊆ ks) {c : Cmd} (hc : Writing ls c) : Writing ks c := by
  cases c with
  | mkdir d => exact hc
  | print t log => exact h hc
  | output log => exact h hc
  | findDelete | findGzip | prune | rotate => exact hc.elim

theorem checkSys_only (s : Status) (current : ℕ) : Only (Writing [statusLog, alertLog]) (checkSys s current) := by
  refine only_map_cmd fun c hc => ?_
  rcases of_mem_checkSysCmds hc with h | ⟨l, -, rfl⟩
  · exact h.mono (List.cons_subset_cons _ (List.nil_subset _))
  · exact List.mem_cons_of_mem _ List.mem_cons_self

theorem detectCmds_writing (users : ℕ) (sockets : List Socket) (current : ℕ) :
    ∀ c ∈ detectCmds users sockets current, Writing [anomalyLog] c := by
  intro c hc
  have hlog : anomalyLog ∈ [anomalyLog] := List.mem_singleton_self _
  simp only [detectCmds, detectFirst, detectLast, List.mem_append, List.mem_cons, List.not_mem_nil, or_false] at hc
  rcases hc with (h | h) | h
  · rcases h with rfl | h
    · exact rfl
    · rcases h with rfl | rfl | rfl | rfl | rfl | rfl | rfl | rfl | rfl | rfl | rfl | rfl | rfl | rfl | rfl <;>
        exact hlog
  · rw [(List.mem_replicate.mp h).2]
    exact hlog
  · rcases h with rfl | rfl | rfl | rfl | rfl | rfl | rfl | rfl | rfl <;> exact hlog

theorem detectAnomaly_only (users : ℕ) (sockets : List Socket) (current : ℕ) :
    Only (Logging anomalyLog) (detectAnomaly users sockets current) :=
  Only.append (only_map_cmd fun c hc => Or.inl (detectCmds_writing users sockets current c hc))
    (only_rotateStmt (Or.inr rfl))

theorem uploadEvents_only (data : Text) (ok : Bool) (current : ℕ) :
    Only (Logging uploadLog) (uploadEvents data ok current) := by
  have hlog : uploadLog ∈ [uploadLog] := List.mem_singleton_self _
  intro s hs c hc
  simp only [uploadEvents, uploadFirst, uploadRest, rotateStmt, List.mem_append, List.mem_cons,
    List.not_mem_nil, or_false] at hs
  rcases hs with (rfl | rfl) | rfl | rfl | rfl | rfl | rfl | rfl | rfl
  · rw [Stmt.cmds, List.mem_singleton] at hc
    exact Or.inl (hc ▸ rfl)
  case inr.inr.inr.inr.inr.inr.inr =>
    rw [Stmt.cmds, List.append_nil, List.mem_singleton] at hc
    exact Or.inr hc
  all_goals
    rw [Stmt.cmds, List.mem_singleton] at hc
    exact Or.inl (hc ▸ hlog)

theorem ageStmt_only {dir : Path} (h : dir ∈ logDirs) : Only Cleaning [ageStmt dir] := by
  intro s hs c hc
  rw [List.mem_singleton] at hs
  subst hs
  simp only [ageStmt, Stmt.cmds, List.mem_append, List.mem_cons, List.mem_flatMap, List.not_mem_nil,
    or_false] at hc
  rcases hc with (rfl | ⟨suf, hsuf, rfl | rfl⟩) | rfl
  · exact rfl
  · exact rfl
  · exact ⟨h, hsuf, rfl⟩
  · exact rfl

theorem compressStmt_only {dir : Path} (h : dir ∈ logDirs) : Only Cleaning [compressStmt dir] := by
  intro s hs c hc
  rw [List.mem_singleton] at hs
  subst hs
  simp only [compressStmt, Stmt.cmds, List.append_nil, List.mem_cons, List.not_mem_nil, or_false] at hc
  rcases hc with rfl | rfl
  · exact rfl
  · exact ⟨h, rfl⟩

theorem only_of_mem {A : Cmd → Prop} {prog : List Line} (h : ∀ s ∈ prog, Only A [s]) : Only A prog :=
  fun s hs => h s hs s (List.mem_singleton_self s)

theorem cleanFirst_only (current : ℕ) : Only Cleaning (cleanFirst current) := by
  refine Only.append (Only.append ?_ (only_of_mem ?_)) (only_of_mem ?_)
  · refine only_map_cmd (l := [.mkdir logDir, .echo _ cleanLog]) ?_
    rw [List.forall_mem_cons, List.forall_mem_singleton]
    exact ⟨rfl, rfl⟩
  · intro s hs
    obtain ⟨dir, hdir, rfl⟩ := List.mem_map.mp hs
    exact ageStmt_only hdir
  · intro s hs
    obtain ⟨dir, hdir, rfl⟩ := List.mem_map.mp hs
    exact compressStmt_only hdir

theorem pruneStmt_only (cwd : Path) : Only Cleaning [pruneStmt cwd] := by
  intro s hs c hc
  rw [List.mem_singleton] at hs
  subst hs
  rw [pruneStmt, Stmt.cmds, List.append_nil, List.mem_map] at hc
  obtain ⟨log, hlog, rfl⟩ := hc
  exact ⟨List.mem_map_of_mem hlog, rfl⟩

theorem cleanReport_only : Only (Writing [cleanLog]) cleanReport := by
  refine only_map_cmd (l := [.echo _ cleanLog, .output cleanLog, .echo _ cleanLog, .echo _ cleanLog]) ?_
  have hlog : cleanLog ∈ [cleanLog] := List.mem_singleton_self _
  simp only [List.forall_mem_cons, List.not_mem_nil, false_imp_iff, implies_true, and_true]
  exact ⟨hlog, hlog, hlog, hlog⟩

theorem Writing.cleaning {c : Cmd} (h : Writing [cleanLog] c) : Cleaning c := by
  cases c with
  | mkdir d => exact h
  | print t log => exact List.mem_singleton.mp h
  | output log => exact List.mem_singleton.mp h
  | findDelete | findGzip | prune | rotate => exact h.elim

theorem cleanLogs_only (cwd : Path) (current : ℕ) : Only Cleaning (cleanLogs cwd current) := by
  refine Only.append (Only.append (Only.append (cleanFirst_only current) (pruneStmt_only cwd))
    (cleanReport_only.mono fun c => Writing.cleaning)) (only_of_mem ?_)
  intro s hs
  obtain ⟨log, hl, rfl⟩ := List.mem_map.mp hs
  exact only_rotateStmt (A := Cleaning) hl

/-- **Every command of a script is scripted.** -/
theorem IsScript.only {prog : List Line} (h : IsScript prog) : Only Scripted prog := by
  cases h with
  | checkSys s current => exact (checkSys_only s current).mono fun c => Writing.scripted (by decide)
  | cleanLogs cwd current => exact (cleanLogs_only cwd current).mono fun c => Cleaning.scripted
  | detectAnomaly users sockets current =>
    exact (detectAnomaly_only users sockets current).mono fun c => Logging.scripted (by decide)
  | uploadEvents data ok current =>
    exact (uploadEvents_only data ok current).mono fun c => Logging.scripted (by decide)

/-- **What every command of the scripts preserves, any number of runs
preserve.** -/
theorem runAll_induct {A : Cmd → Prop} {I : Host → Prop} (hA : ∀ {prog}, IsScript prog → Only A prog) (w : World)
    (hcmd : ∀ c, A c → ∀ m, I m → I (execCmd (shell Text) w m c)) (hpass : ∀ m, I m → I (m.pass w)) :
    ∀ (rs : List Run) (m : Host), I m → I (runAll w m rs)
  | [], _, h => h
  | r :: rs, m, h => by
    obtain ⟨prog, hprog, heq⟩ := r.exec_eq w m
    refine runAll_induct hA w hcmd hpass rs _ (heq ▸ ?_)
    exact exec_induct (shell Text) w prog (fun s hs c hc => hcmd c (hA hprog s hs c hc)) hpass m h

end Croner
end OpsScripts
