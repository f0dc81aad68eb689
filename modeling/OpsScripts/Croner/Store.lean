/-
# How many files the log directory holds

Complete runs of the scripts, one after another, from an empty directory. The
three families that `clean_logs.sh` prunes have twelve files at most, however
often it runs: it is also the only script that renames their logs. The files
renamed from `anomaly_detection.log` and `event_upload.log` are different.
Their names end in a digit, so they do not age out, and no pattern of the
pruning matches them: there is one for each second in which the log was
renamed, for ever (`card_le_glob`, `glob_le_card`). So a collection of runs
has a common bound if and only if it has one for these renames
(`store_bounded_iff`), and how often `clean_logs.sh` runs does not matter
(`store_unbounded`).

Key definitions: `renameSeconds`, `Permanent`, `History`.
Key theorems: `rotated_stays`, `store_bounded_iff`.
-/
import OpsScripts.Croner.Rotation

namespace OpsScripts
namespace Croner

/-- The logs whose renamed files nothing removes. -/
def unprunedLogs : List Name := [anomalyLog, uploadLog]

theorem mem_logs_of_unpruned : ∀ log ∈ unprunedLogs, log ∈ logs := by decide

theorem notMem_cleanedLogs : ∀ log ∈ unprunedLogs, log ∉ cleanedLogs := by decide

section Store

variable {α : Type}

/-! ### Renamed files that stay -/

/-- The seconds in which a log was renamed. -/
def renameSeconds (log : Name) (past : List (Step Cmd (Tree Name α))) : Finset ℕ :=
  ((past.filter fun s => renamed s = some log).map fun s => s.moment.now / second).toFinset

theorem mem_renameSeconds {log : Name} {past : List (Step Cmd (Tree Name α))} {k : ℕ} :
    k ∈ renameSeconds log past ↔ ∃ s ∈ past, renamed s = some log ∧ s.moment.now / second = k := by
  simp [renameSeconds, and_assoc]

theorem renameSeconds_mono {log : Name} {p q : List (Step Cmd (Tree Name α))} (h : p ⊆ q) :
    renameSeconds log p ⊆ renameSeconds log q := by
  intro k hk
  obtain ⟨s, hs, hr⟩ := mem_renameSeconds.mp hk
  exact mem_renameSeconds.mpr ⟨s, h hs, hr⟩

/-- Every rename of an unpruned log has left its file. -/
def Permanent (m : Machine Cmd (Tree Name α)) : Prop :=
  ∀ log ∈ unprunedLogs, ∀ s ∈ m.past, renamed s = some log →
    (m.state.file? (rotated log s.moment.now :: logDir)).isSome = true

section Content

variable [Content α]

theorem not_hasSuffix_rotated {suf : Text} (h : suf ∈ agedSuffixes) (log : Name) (n : ℕ) :
    Tree.hasSuffix suf (rotated log n :: logDir) = false := by
  refine decide_eq_false (not_suffix_rotated ?_ log n)
  have hlast : ∀ suf ∈ agedSuffixes, ∃ c, suf.getLast? = some c ∧ c.isDigit = false := by
    simp only [agedSuffixes, List.forall_mem_cons, List.not_mem_nil, false_imp_iff, implies_true, and_true]
    exact ⟨⟨'g', by decide, by decide⟩, ⟨'z', by decide, by decide⟩, ⟨'d', by decide, by decide⟩⟩
  exact hlast suf h

/-- A rename leaves a file under the new name. -/
theorem isSome_rotated {t : Tree Name α} (ht : Tame t) (mo : Moment) {log : Name} (hlog : log ∈ logs)
    (h : (t.file? (log :: logDir)).isSome = true) :
    ((effect (.rotate log) mo t).file? (rotated log mo.now :: logDir)).isSome = true := by
  obtain ⟨f, hf⟩ := Option.isSome_iff_exists.mp h
  have hne : rotated log mo.now :: logDir ≠ log :: logDir := fun e =>
    rotated_notMem_logs log mo.now (by rw [(List.cons.inj e).1]; exact hlog)
  rw [effect, Tree.file?_mvFile mo.now hf (ht.file _), if_neg hne, if_pos rfl]
  rfl

/-- **No command removes a file renamed from an unpruned log.** -/
theorem rotated_stays {t : Tree Name α} (ht : Tame t) {c : Cmd} (hc : Scripted c) (mo : Moment) {log : Name}
    (hlog : log ∈ unprunedLogs) (n : ℕ) (h : (t.file? (rotated log n :: logDir)).isSome = true) :
    ((effect c mo t).file? (rotated log n :: logDir)).isSome = true := by
  obtain ⟨f, hf⟩ := Option.isSome_iff_exists.mp h
  have hkept : ∀ {t' : Tree Name α} {g : File α}, t'.file? (rotated log n :: logDir) = some g →
      (t'.file? (rotated log n :: logDir)).isSome = true := fun hg => Option.isSome_iff_exists.mpr ⟨_, hg⟩
  cases c with
  | mkdir d => exact hkept ((Tree.file?_mkdirP ..).trans hf)
  | print x l =>
    obtain ⟨g, hg, -⟩ := Tree.appendTo_keeps mo.now (l :: logDir) (Content.block mo.tick x) hf
    exact hkept hg
  | output l =>
    obtain ⟨g, hg, -⟩ := Tree.appendTo_keeps mo.now (l :: logDir) (Content.block mo.tick mo.out) hf
    exact hkept hg
  | findDelete dir suf days =>
    refine hkept (g := f) ?_
    rw [effect, Tree.file?_findDelete, hf]
    simp [Option.filter, Tree.aged, not_hasSuffix_rotated hc.2.1]
  | findGzip dir l =>
    obtain ⟨-, rfl⟩ := hc
    have hclean : Tree.hasSuffix ".log".toList (cleanLog :: logDir) = true := hasSuffix_log (by decide)
    rcases Tree.findGzip_keeps mo.now dir (Content.block mo.tick mo.out) hclean hf with ⟨g, hg, -⟩ | ⟨-, hsuf, -⟩
    · exact hkept hg
    · rw [not_hasSuffix_rotated (by decide)] at hsuf
      cases hsuf
  | prune cwd pre keep =>
    refine hkept (g := f) ?_
    rw [ht.effect_prune hc mo, Tree.file?_removeAll, if_neg, hf]
    -- the pruned families are others
    intro hm
    obtain ⟨x, hx, hxe⟩ := List.mem_map.mp hm
    obtain ⟨log', hlog', rfl⟩ := List.mem_map.mp hc.1
    have hpre := ((t.mem_glob _ _ _).mp (Tree.mem_glob_of_mem_overflow hx)).2
    rw [(List.cons.inj hxe).1] at hpre
    have heq : log = log' := log_eq_of_prefixes (mem_logs_of_unpruned log hlog) (mem_logs hlog')
      (List.prefix_append _ _) ((prefix_stem log').trans hpre)
    exact notMem_cleanedLogs log hlog (heq ▸ hlog')
  | rotate l =>
    cases hlive : t.file? (l :: logDir) with
    | none => exact hkept (by rw [effect, Tree.mvFile_of_none hlive, hf])
    | some g =>
      have hne : rotated log n :: logDir ≠ l :: logDir := fun e =>
        rotated_notMem_logs log n ((List.cons.inj e).1 ▸ hc)
      rw [effect, Tree.file?_mvFile mo.now hlive (ht.file _), if_neg hne]
      split
      · rfl
      · exact h

theorem Permanent.execCmd {m : Machine Cmd (Tree Name α)} (h : Permanent m) (ht : Tame m.state) (w : World) {c : Cmd}
    (hc : Scripted c) : Permanent (execCmd (shell α) w m c) := by
  intro log hlog s hs hr
  rw [execCmd_past, List.mem_append, List.mem_singleton] at hs
  rcases hs with hs | rfl
  · exact rotated_stays ht hc _ hlog _ (h log hlog s hs hr)
  · obtain ⟨hcmd, hlive⟩ := renamed_eq_some.mp hr
    obtain rfl : c = .rotate log := hcmd
    exact isSome_rotated ht _ hc hlive

end Content

/-! ### Counting -/

theorem rotated_congr {log : Name} {n n' : ℕ} (h : n / second = n' / second) : rotated log n = rotated log n' := by
  rw [rotated, rotated, dateStamp_inj.mpr h]

theorem length_glob (t : Tree Name α) (pre : Name) :
    (t.glob logDir pre).length = (t.glob logDir pre).toFinset.card :=
  (List.toFinset_card_of_nodup ((t.names_nodup _).filter _)).symm

/-- A file for every second of a rename. -/
theorem card_le_glob {m : Machine Cmd (Tree Name α)} (h : Permanent m) {log : Name} (hlog : log ∈ unprunedLogs) :
    (renameSeconds log m.past).card ≤ (m.state.glob logDir log).length := by
  have hl := mem_logs_of_unpruned log hlog
  have hsec : ∀ k, k * second / second = k := fun k => Nat.mul_div_cancel k (by decide)
  rw [length_glob]
  refine Finset.card_le_card_of_injOn (fun k => rotated log (k * second)) (fun k hk => ?_) fun k _ k' _ he => ?_
  · obtain ⟨s, hs, hr, rfl⟩ := mem_renameSeconds.mp hk
    dsimp only
    rw [Finset.mem_coe, List.mem_toFinset, Tree.mem_glob, Tree.mem_names, rotated_congr (hsec _)]
    exact ⟨Or.inl (h log hlog s hs hr), List.prefix_append _ _⟩
  · have hstamp := dateStamp_inj.mp ((rotated_inj hl hl).mp he).2
    rwa [hsec, hsec] at hstamp

/-- And only the log and its compressed file besides. -/
theorem glob_le_card {m : Machine Cmd (Tree Name α)} (h : Recorded 0 m) {log : Name} (hlog : log ∈ logs) :
    (m.state.glob logDir log).length ≤ (renameSeconds log m.past).card + 2 := by
  have hsub : (m.state.glob logDir log).toFinset ⊆
      insert log (insert (log ++ ".gz".toList) ((renameSeconds log m.past).image fun k => rotated log (k * second))) := by
    intro x hx
    rw [List.mem_toFinset, Tree.mem_glob, Tree.mem_names, h.tame.file] at hx
    obtain ⟨f, hf⟩ := Option.isSome_iff_exists.mp (hx.1.resolve_right (by simp))
    simp only [Finset.mem_insert, Finset.mem_image]
    have hsame : ∀ {log' : Name}, log' ∈ logs → log' <+: x → log' = log := fun hl' hp =>
      log_eq_of_prefixes hl' hlog hp hx.2
    cases h.tame.made x f hf with
    | live hl' => exact Or.inl (hsame hl' (List.prefix_refl _))
    | compressed hl' => exact Or.inr (Or.inl (by rw [hsame hl' (List.prefix_append _ _)]))
    | rotated hl' n =>
      obtain rfl := hsame hl' (List.prefix_append _ _)
      rcases h.source _ hl' n (Option.isSome_iff_exists.mpr ⟨f, hf⟩) with hlt | ⟨s, hs, hr, hsec⟩
      · exact absurd hlt (by simp)
      · refine Or.inr (Or.inr ⟨n / second, mem_renameSeconds.mpr ⟨s, hs, hr, hsec⟩, rotated_congr ?_⟩)
        exact Nat.mul_div_cancel _ (by decide)
  rw [length_glob]
  calc (m.state.glob logDir log).toFinset.card
      ≤ (insert log (insert (log ++ ".gz".toList)
          ((renameSeconds log m.past).image fun k => rotated log (k * second)))).card := Finset.card_le_card hsub
    _ ≤ ((renameSeconds log m.past).image fun k => rotated log (k * second)).card + 1 + 1 :=
      (Finset.card_insert_le _ _).trans (Nat.add_le_add_right (Finset.card_insert_le _ _) 1)
    _ ≤ (renameSeconds log m.past).card + 2 := Nat.add_le_add_right Finset.card_image_le 2

/-! ### The pruned families -/

theorem Tame.orderly {t : Tree Name α} (h : Tame t) : Orderly t :=
  ⟨fun _ hx => (h.made_of_mem_names hx).slash_notMem, fun _ _ x _ _ => h.file x,
    fun _ _ _ hx _ => (h.made_of_mem_names hx).plain⟩

/-- A family is its log and the names that begin with `<log>.`. -/
theorem glob_log_le {t : Tree Name α} (h : Tame t) {log : Name} (hlog : log ∈ logs) :
    (t.glob logDir log).length ≤ (t.glob logDir (stem log)).length + 1 := by
  have hsub : t.glob logDir log ⊆ log :: t.glob logDir (stem log) := by
    intro x hx
    rw [Tree.mem_glob] at hx
    rw [List.mem_cons, Tree.mem_glob]
    have hsame : ∀ {log' : Name}, log' ∈ logs → log' <+: x → log' = log := fun hl' hp =>
      log_eq_of_prefixes hl' hlog hp hx.2
    cases h.made_of_mem_names hx.1 with
    | live hl' => exact Or.inl (hsame hl' (List.prefix_refl _))
    | compressed hl' => exact Or.inr ⟨hx.1, hsame hl' (List.prefix_append _ _) ▸ stem_prefix_gz _⟩
    | rotated hl' n => exact Or.inr ⟨hx.1, hsame hl' (List.prefix_append _ _) ▸ stem_prefix_rotated _ n⟩
  exact (((t.names_nodup _).filter _).subperm hsub).length_le

section Content

variable [Content α]

/-- A command that makes and removes no file `<log>.*`. -/
def Elsewhere (log : Name) : Cmd → Prop
  | .mkdir _ => True
  | .print _ l => l ∈ logs
  | .output l => l ∈ logs
  | .rotate l => l ∈ logs ∧ log ≠ l
  | _ => False

theorem Writing.elsewhere {ls : List Name} (hls : ls ⊆ logs) (log : Name) {c : Cmd} (h : Writing ls c) :
    Elsewhere log c := by
  cases c with
  | mkdir d => exact trivial
  | print x l => exact hls h
  | output l => exact hls h
  | findDelete | findGzip | prune | rotate => exact h.elim

theorem Logging.elsewhere {l : Name} (hl : l ∈ logs) {log : Name} (hne : log ≠ l) {c : Cmd} (h : Logging l c) :
    Elsewhere log c := by
  rcases h with h | rfl
  · exact h.elsewhere (by simpa using hl) log
  · exact ⟨hl, hne⟩

theorem file?_elsewhere (w : World) {log : Name} (hlog : log ∈ logs) {prog : List Line}
    (hp : Only (Elsewhere log) prog) {x : Name} (hx : stem log <+: x) (m : Machine Cmd (Tree Name α)) :
    (exec (shell α) w prog m).state.file? (x :: logDir) = m.state.file? (x :: logDir) := by
  refine exec_induct (I := fun m' => m'.state.file? (x :: logDir) = m.state.file? (x :: logDir)) (shell α) w prog
    (fun s hs c hc m' h => ?_) (fun _ h => h) m rfl
  have hc := hp s hs c hc
  have hne : ∀ {l}, l ∈ logs → x :: logDir ≠ l :: logDir := fun hl e =>
    not_stem_prefix_log log hlog _ hl ((List.cons.inj e).1 ▸ hx)
  rw [← h]
  cases c with
  | mkdir d => exact Tree.file?_mkdirP ..
  | print t l => exact Tree.file?_appendTo_ne _ _ _ _ (hne hc)
  | output l => exact Tree.file?_appendTo_ne _ _ _ _ (hne hc)
  | rotate l => exact file?_rotate_ne m'.state _ hlog hc.1 ((prefix_stem log).trans hx) hc.2
  | findDelete | findGzip | prune => exact hc.elim

/-- Every script but `clean_logs.sh` leaves the pruned families alone. -/
theorem IsScript.elsewhere {prog : List Line} (h : IsScript prog) :
    (∃ cwd current, prog = Croner.cleanLogs cwd current) ∨ ∀ log ∈ cleanedLogs, Only (Elsewhere log) prog := by
  cases h with
  | checkSys s current =>
    exact Or.inr fun log _ => (checkSys_only s current).mono fun c => Writing.elsewhere (by decide) log
  | cleanLogs cwd current => exact Or.inl ⟨cwd, current, rfl⟩
  | detectAnomaly users sockets current =>
    refine Or.inr fun log hlog => (detectAnomaly_only users sockets current).mono fun c => Logging.elsewhere (by decide) ?_
    rintro rfl
    exact absurd hlog (by decide)
  | uploadEvents data ok current =>
    refine Or.inr fun log hlog => (uploadEvents_only data ok current).mono fun c => Logging.elsewhere (by decide) ?_
    rintro rfl
    exact absurd hlog (by decide)

/-- **A pruned family has eleven renamed files at most after a script, if it
had so before.** -/
theorem glob_stem_le (w : World) {prog : List Line} (hprog : IsScript prog) {m : Machine Cmd (Tree Name α)}
    (ht : Tame m.state) {log : Name} (hlog : log ∈ cleanedLogs) (h : (m.state.glob logDir (stem log)).length ≤ 11) :
    ((exec (shell α) w prog m).state.glob logDir (stem log)).length ≤ 11 := by
  rcases hprog.elsewhere with ⟨cwd, current, rfl⟩ | helse
  · exact length_glob_cleanLogs w cwd current ht.orderly hlog
  · have ht' : Tame (exec (shell α) w prog m).state := ht.exec w hprog.only
    have hsub : (exec (shell α) w prog m).state.glob logDir (stem log) ⊆ m.state.glob logDir (stem log) := by
      intro x hx
      rw [ht'.orderly.mem_glob hlog] at hx
      rw [ht.orderly.mem_glob hlog, ← file?_elsewhere w (mem_logs hlog) (helse log hlog) hx.1]
      exact hx
    exact ((((Tree.names_nodup _ _).filter _).subperm hsub).length_le).trans h

end Content

end Store

/-! ### Any number of runs -/

/-- Complete runs from an empty log directory. -/
structure History where
  world : World
  tree : Tree Name Text
  now : ℕ
  runs : List Run
  empty : Empty tree

/-- The machine after them. -/
def History.machine (h : History) : Host := runAll h.world (.start h.tree h.now) h.runs

theorem Empty.recorded {t : Tree Name Text} (h : Empty t) (now : ℕ) : Recorded 0 (.start t now : Host) :=
  ⟨h.tame, Nat.zero_le _, fun log _ n hf => by simp [Machine.start, Tree.file?, h.node (rotated log n)] at hf⟩

theorem History.recorded (h : History) : Recorded 0 h.machine :=
  runAll_induct IsScript.only h.world (fun _ hc _ hm => hm.execCmd _ hc) (fun _ hm => hm.pass _) h.runs _ (h.empty.recorded h.now)

theorem History.permanent (h : History) : Permanent h.machine :=
  (runAll_induct (I := fun m => Tame m.state ∧ Permanent m) IsScript.only h.world
    (fun _ hc _ hm => ⟨hm.1.effect hc _, hm.2.execCmd hm.1 _ hc⟩) (fun _ hm => hm) h.runs _
    ⟨h.empty.tame, fun _ _ _ hs => absurd hs List.not_mem_nil⟩).2

theorem glob_stem_runAll (w : World) {log : Name} (hlog : log ∈ cleanedLogs) : ∀ (rs : List Run) (m : Host),
    Tame m.state → (m.state.glob logDir (stem log)).length ≤ 11 →
      ((runAll w m rs).state.glob logDir (stem log)).length ≤ 11
  | [], _, _, h => h
  | r :: rs, m, ht, h => by
    obtain ⟨prog, hprog, heq⟩ := r.exec_eq w m
    refine glob_stem_runAll w hlog rs (r.exec w m) ?_ ?_
    · rw [heq]
      exact ht.exec w hprog.only
    · rw [heq]
      exact glob_stem_le w hprog ht hlog h

/-- A pruned family has twelve files at most. -/
theorem History.glob_cleaned_le (h : History) {log : Name} (hlog : log ∈ cleanedLogs) :
    (h.machine.state.glob logDir log).length ≤ 12 := by
  have hstart : (h.tree.glob logDir (stem log)).length ≤ 11 := by simp [Tree.glob, h.empty.names]
  exact (glob_log_le h.recorded.tame (mem_logs hlog)).trans
    (Nat.succ_le_succ (glob_stem_runAll h.world hlog h.runs _ h.empty.tame hstart))

/-- **A bound for the files is a bound for the renames that nothing prunes.** -/
theorem store_bounded_iff (A : Set History) :
    (∃ N, ∀ h ∈ A, ∀ log ∈ logs, (h.machine.state.glob logDir log).length ≤ N) ↔
      ∃ R, ∀ h ∈ A, ∀ log ∈ unprunedLogs, (renameSeconds log h.machine.past).card ≤ R := by
  constructor
  · rintro ⟨N, hN⟩
    exact ⟨N, fun h hh log hlog =>
      (card_le_glob h.permanent hlog).trans (hN h hh log (mem_logs_of_unpruned log hlog))⟩
  · rintro ⟨R, hR⟩
    refine ⟨max 12 (R + 2), fun h hh log hlog => ?_⟩
    rcases List.mem_append.mp hlog with hc | hu
    · exact (h.glob_cleaned_le hc).trans (le_max_left _ _)
    · exact ((glob_le_card h.recorded hlog).trans (Nat.add_le_add_right (hR h hh log hu) 2)).trans (le_max_right _ _)

/-! ### Runs without a bound -/

/-- `clean_logs.sh` is among any `K` runs in a row. -/
def Regular (K : ℕ) (rs : List Run) : Prop :=
  ∀ i, i + K ≤ rs.length → ∃ cwd, Run.cleanLogs cwd ∈ (rs.drop i).take K

/-- Cleaning and scanning in turn. -/
def rounds : ℕ → List Run
  | 0 => []
  | n + 1 => .cleanLogs [] :: .detectAnomaly 0 [] :: rounds n

theorem regular_rounds : ∀ n, Regular 2 (rounds n)
  | 0, i, h => absurd h (by simp [rounds])
  | n + 1, 0, _ => ⟨[], List.mem_cons_self⟩
  | 0 + 1, 1, h => absurd h (by simp [rounds])
  | n + 1 + 1, 1, _ => ⟨[], List.mem_cons_of_mem _ List.mem_cons_self⟩
  | n + 1, i + 2, h => by
    have hlen : (rounds (n + 1)).length = (rounds n).length + 2 := rfl
    exact regular_rounds n i (by omega)

/-- A scan that prints much renames its log, in a second of its own. -/
theorem detectAnomaly_renames (users : ℕ) (sockets : List Socket) (current : ℕ) {m : Host} (ht : Tame m.state) :
    ∃ s ∈ (exec (shell Text) (flood second) (detectAnomaly users sockets current) m).past,
      renamed s = some anomalyLog ∧ m.now / second < s.moment.now / second := by
  obtain ⟨cs, ds, hsplit⟩ : ∃ cs ds, detectCmds users sockets current = cs ++ .output anomalyLog :: ds :=
    ⟨[_, _, _], _, rfl⟩
  obtain ⟨m', hm'⟩ : ∃ m', m' = (detectCmds users sockets current).foldl (execCmd (shell Text) (flood second)) m :=
    ⟨_, rfl⟩
  have hover : holds (.oversize anomalyLog) m'.state = true := by
    have hw := detectCmds_writing users sockets current
    rw [hsplit] at hw hm'
    rw [hm']
    exact oversize_of_output (byteSize_flood second) (by decide) cs ds (fun c hc => hw c (List.mem_append_left _ hc))
      (fun c hc => hw c (List.mem_append_right _ (List.mem_cons_of_mem _ hc))) ht
  have hexec : exec (shell Text) (flood second) (detectAnomaly users sockets current) m =
      execCmd (shell Text) (flood second) (m'.pass (flood second)) (.rotate anomalyLog) := by
    rw [detectAnomaly, exec_append, exec_map_cmd, ← hm', exec_cons, exec_nil, rotateStmt, execStmt,
      if_pos (show (shell Text).holds (.oversize anomalyLog) m'.state = true from hover)]
    rfl
  have hnow : m.now ≤ m'.now := by
    rw [hm', ← exec_map_cmd]
    exact now_le_exec ..
  refine ⟨(m'.pass (flood second)).step (flood second) (.rotate anomalyLog), ?_, ?_, ?_⟩
  · rw [hexec, execCmd_past]
    exact List.mem_append_right _ (List.mem_singleton_self _)
  · exact renamed_eq_some.mpr ⟨rfl, isSome_of_oversize hover⟩
  · have hmoment : ((m'.pass (flood second)).moment (flood second)).now = m'.now + second + second := rfl
    rw [Machine.step, hmoment, Nat.add_div_right _ (by decide), Nat.add_div_right _ (by decide)]
    exact Nat.lt_succ_of_lt (Nat.lt_succ_of_le (Nat.div_le_div_right hnow))

/-- Each round adds a second. -/
theorem card_rounds : ∀ (n : ℕ) (m : Host), Tame m.state → (∀ s ∈ m.past, s.moment.now ≤ m.now) →
    (renameSeconds anomalyLog m.past).card + n ≤
      (renameSeconds anomalyLog (runAll (flood second) m (rounds n)).past).card
  | 0, _, _, _ => le_rfl
  | n + 1, m, ht, hpast => by
    obtain ⟨m₁, h₁⟩ : ∃ m₁, m₁ = (Run.cleanLogs []).exec (flood second) m := ⟨_, rfl⟩
    obtain ⟨m₂, h₂⟩ : ∃ m₂, m₂ = (Run.detectAnomaly 0 []).exec (flood second) m₁ := ⟨_, rfl⟩
    have ht₁ : Tame m₁.state := h₁ ▸ ht.exec _ (IsScript.cleanLogs _ _).only
    have hpast₁ : ∀ s ∈ m₁.past, s.moment.now ≤ m₁.now := h₁ ▸ moment_le_of_mem_past _ _ _ m hpast
    have hmono₁ : renameSeconds anomalyLog m.past ⊆ renameSeconds anomalyLog m₁.past :=
      renameSeconds_mono (h₁ ▸ past_subset_exec _ _ _ m)
    have hmono₂ : renameSeconds anomalyLog m₁.past ⊆ renameSeconds anomalyLog m₂.past :=
      renameSeconds_mono (h₂ ▸ past_subset_exec _ _ _ m₁)
    obtain ⟨s, hs, hr, hlt⟩ := detectAnomaly_renames 0 [] (m₁.moment (flood second)).now ht₁
    have hnew : s.moment.now / second ∉ renameSeconds anomalyLog m₁.past := by
      intro hmem
      obtain ⟨r, hr', -, heq⟩ := mem_renameSeconds.mp hmem
      exact absurd (Nat.div_le_div_right (c := second) (hpast₁ r hr')) (by omega)
    have hsub : insert (s.moment.now / second) (renameSeconds anomalyLog m.past) ⊆
        renameSeconds anomalyLog m₂.past := by
      refine Finset.insert_subset (mem_renameSeconds.mpr ⟨s, ?_, hr, rfl⟩) (hmono₁.trans hmono₂)
      rw [h₂]
      exact hs
    have hcard := Finset.card_le_card hsub
    rw [Finset.card_insert_of_notMem fun hmem => hnew (hmono₁ hmem)] at hcard
    have ih := card_rounds n m₂ (h₂ ▸ ht₁.exec _ (IsScript.detectAnomaly _ _ _).only)
      (h₂ ▸ moment_le_of_mem_past _ _ _ m₁ hpast₁)
    have hrounds : runAll (flood second) m (rounds (n + 1)) = runAll (flood second) m₂ (rounds n) := by
      rw [h₂, h₁, rounds, runAll, List.foldl_cons, List.foldl_cons, ← runAll]
    rw [hrounds]
    omega

/-- **Cleaning every second time does not bound the store.** Every scan prints
more than 1 MiB and renames `anomaly_detection.log`. -/
theorem store_unbounded : ¬ ∀ K, ∃ N, ∀ h : History, Regular K h.runs →
    ∀ log ∈ logs, (h.machine.state.glob logDir log).length ≤ N := by
  intro hbound
  obtain ⟨N, hN⟩ := hbound 2
  obtain ⟨h, hh⟩ : ∃ h : History, h = ⟨flood second, freshTree Text, 0, rounds (N + 1), empty_freshTree Text⟩ := ⟨_, rfl⟩
  have hcard : N + 1 ≤ (renameSeconds anomalyLog h.machine.past).card := by
    rw [hh]
    exact le_trans (Nat.le_add_left _ _)
      (card_rounds (N + 1) (.start (freshTree Text) 0) (empty_freshTree Text).tame nofun)
  have hle := hN h (hh ▸ regular_rounds (N + 1)) anomalyLog (by decide)
  have hfiles := card_le_glob h.permanent (by decide : anomalyLog ∈ unprunedLogs)
  omega

end Croner
end OpsScripts
