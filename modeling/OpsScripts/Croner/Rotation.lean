/-
# Rotation and the text of the logs

Any number of scripts at once, one command at a time. A log is renamed to a
name with the second of the rename in it, so two renames of one log in one
second meet the same name, and the second one replaces what the first one
moved there (`rotation_overwrites`: two uploads that wait for a server and
finish in the same second). If that does not happen, and no compression
prints messages to the log it is compressing, then every text that was ever
appended to a log is in a file of its family, or went with a file that the age
deletion or the pruning took (`rotation_lossless`).

Contents are lists of blocks here, each with the number of the action that
printed it, so that equal texts stay apart.

Key definitions: `Blocks`, `Held`, `Retired`, `Lossless`, `Spaced`.
Key theorems: `Recorded.execCmd`, `step_held`, `rotation_lossless`.
-/
import OpsScripts.Croner.Retention

namespace OpsScripts
namespace Croner

/-! ### Renames -/

section Renames

variable {α : Type}

/-- The log that a step renamed. The command finds nothing to rename if
another process was faster. -/
def renamed (s : Step Cmd (Tree Name α)) : Option Name :=
  match s.cmd with
  | .rotate log => if (s.before.file? (log :: logDir)).isSome then some log else none
  | _ => none

theorem renamed_eq_some {s : Step Cmd (Tree Name α)} {log : Name} :
    renamed s = some log ↔ s.cmd = .rotate log ∧ (s.before.file? (log :: logDir)).isSome = true := by
  unfold renamed
  split
  · rename_i l hl
    rw [hl]
    constructor
    · intro h
      split at h
      · rename_i hf
        obtain rfl : l = log := Option.some.inj h
        exact ⟨rfl, hf⟩
      · cases h
    · rintro ⟨h, hf⟩
      obtain rfl : l = log := Cmd.rotate.inj h
      rw [if_pos hf]
  · rename_i hne
    exact ⟨nofun, fun h => absurd h.1 (hne log)⟩

/-- A directory of the scripts' own, with renamed files of earlier seconds. -/
structure Settled (t : Tree Name α) (now : ℕ) : Prop where
  tame : Tame t
  earlier : ∀ log ∈ logs, ∀ n, (t.file? (rotated log n :: logDir)).isSome = true → n / second < now / second

theorem Empty.settled {t : Tree Name α} (h : Empty t) (now : ℕ) : Settled t now :=
  ⟨h.tame, fun log _ n hf => by simp [Tree.file?, h.node (rotated log n)] at hf⟩

/-- Every renamed file of a machine that started at `start` is from before, or
from a rename in the machine's past. -/
structure Recorded (start : ℕ) (m : Machine Cmd (Tree Name α)) : Prop where
  tame : Tame m.state
  clock : start ≤ m.now
  source : ∀ log ∈ logs, ∀ n, (m.state.file? (rotated log n :: logDir)).isSome = true →
    n / second < start / second ∨ ∃ s ∈ m.past, renamed s = some log ∧ s.moment.now / second = n / second

theorem Settled.recorded {t : Tree Name α} {now : ℕ} (h : Settled t now) : Recorded now (.start t now) :=
  ⟨h.tame, le_rfl, fun log hlog n hf => Or.inl (h.earlier log hlog n hf)⟩

theorem Recorded.pass {start : ℕ} {m : Machine Cmd (Tree Name α)} (h : Recorded start m) (w : World) :
    Recorded start (m.pass w) :=
  ⟨h.tame, h.clock.trans (m.now_le_moment w), h.source⟩

theorem rotated_notMem_logs (log : Name) (n : ℕ) : rotated log n ∉ logs := fun h =>
  not_suffix_rotated ⟨'g', by decide, by decide⟩ log n (suffix_of_mem_logs _ h)

theorem rotated_ne_gz (log : Name) (n : ℕ) (y : Name) : rotated log n ≠ y ++ ".gz".toList := fun h =>
  not_suffix_rotated ⟨'z', by decide, by decide⟩ log n ⟨y, h.symm⟩

/-- **A name with a second in it comes from a rename in that second.** -/
theorem Recorded.execCmd [Content α] {start : ℕ} {m : Machine Cmd (Tree Name α)} (h : Recorded start m) (w : World) {c : Cmd}
    (hc : Scripted c) : Recorded start (execCmd (shell α) w m c) := by
  refine ⟨h.tame.effect hc _, h.clock.trans (m.now_le_moment w), fun log hlog n hn => ?_⟩
  obtain ⟨f, hf⟩ := Option.isSome_iff_exists.mp hn
  rcases file?_of_effect hc hf with hf | hx | ⟨y, -, -, hy⟩ | ⟨log', hlog', hcmd, hlive, hx⟩
  · refine (h.source log hlog n (Option.isSome_iff_exists.mpr ⟨f, hf⟩)).imp id ?_
    rintro ⟨s, hs, hr⟩
    exact ⟨s, by simp [hs], hr⟩
  · exact absurd hx (rotated_notMem_logs log n)
  · exact absurd hy (rotated_ne_gz log n y)
  · obtain ⟨rfl, hstamp⟩ := (rotated_inj hlog hlog').mp hx
    exact Or.inr ⟨m.step w c, by simp, renamed_eq_some.mpr ⟨hcmd, Option.isSome_iff_exists.mpr ⟨f, hlive⟩⟩,
      (dateStamp_inj.mp hstamp).symm⟩

/-- So a rename in a second without an earlier one finds its new name free. -/
theorem Recorded.free {start : ℕ} {m : Machine Cmd (Tree Name α)} (h : Recorded start m) (w : World) {log : Name}
    (hlog : log ∈ logs)
    (hapart : ∀ s ∈ m.past, renamed s = some log → s.moment.now / second ≠ (m.moment w).now / second) :
    m.state.file? (rotated log (m.moment w).now :: logDir) = none := by
  by_contra hf
  rcases h.source log hlog _ (Option.isSome_iff_ne_none.mpr hf) with hlt | ⟨s, hs, hr, hsec⟩
  · exact absurd (Nat.div_le_div_right (h.clock.trans (m.now_le_moment w))) (Nat.not_le.mpr hlt)
  · exact hapart s hs hr hsec

end Renames

/-! ### Blocks of text -/

/-- What was appended to a file, in order. -/
abbrev Blocks := List (ℕ × Text)

instance : Content Blocks where
  size bs := (bs.map fun b => byteSize b.2).sum
  block k t := [(k, t)]

instance : LawfulContent Blocks where
  size_append a b := by simp [Content.size]
  size_block k t := by simp [Content.size, Content.block]

/-- A file of the family of `log` holds the block. -/
def Held (t : Tree Name Blocks) (log : Name) (b : ℕ × Text) : Prop :=
  ∃ x f, log <+: x ∧ t.file? (x :: logDir) = some f ∧ b ∈ f.data

/-- The text a step prints, and the log it is for. -/
def printed (s : Step Cmd (Tree Name Blocks)) : Option (Name × Text) :=
  match s.cmd with
  | .print t log => some (log, t)
  | .output log => some (log, s.moment.out)
  | .findGzip _ log => some (log, s.moment.out)
  | _ => none

/-- An age deletion or a pruning. -/
def Cmd.isRetention : Cmd → Bool
  | findDelete .. => true
  | prune .. => true
  | _ => false

/-- The step takes a file that holds the block, by age or by rank. -/
def Retired (s : Step Cmd (Tree Name Blocks)) (log : Name) (b : ℕ × Text) : Prop :=
  s.cmd.isRetention = true ∧ ∃ x f, log <+: x ∧ s.before.file? (x :: logDir) = some f ∧ b ∈ f.data ∧
    (s.after (shell Blocks)).file? (x :: logDir) = none

/-- Every text that was appended to a log is there or was retired, and no
rename replaced a file. -/
structure Lossless (m : Machine Cmd (Tree Name Blocks)) : Prop where
  kept : ∀ s ∈ m.past, ∀ log t, printed s = some (log, t) → t ≠ [] →
    Held m.state log (s.moment.tick, t) ∨ ∃ r ∈ m.past, Retired r log (s.moment.tick, t)
  free : ∀ s ∈ m.past, ∀ log, renamed s = some log →
    s.before.file? (rotated log s.moment.now :: logDir) = none

/-- No log was renamed twice in one second, and no compression printed
messages to a log that it compressed. -/
structure Spaced (past : List (Step Cmd (Tree Name Blocks))) : Prop where
  renames : past.Pairwise fun s s' => ∀ log, renamed s = some log → renamed s' = some log →
    s.moment.now / second ≠ s'.moment.now / second
  messages : ∀ s ∈ past, ∀ dir log, s.cmd = .findGzip dir log → s.before.compresses dir (log :: logDir) →
    s.moment.out = []

/-! ### One step -/

theorem byteSize_ne_zero {t : Text} (h : t ≠ []) : byteSize t ≠ 0 := by
  cases t with
  | nil => exact absurd rfl h
  | cons c t =>
    rw [byteSize, List.map_cons, List.sum_cons]
    have := c.utf8Size_pos
    omega

/-- What is appended to a file that can stand there is in it. -/
theorem mem_appendTo {t : Tree Name Blocks} {n : ℕ} {p : Path} {k : ℕ} {x : Text} (hw : t.writable p = true)
    (hx : x ≠ []) : ∃ f, (t.appendTo n p (Content.block k x)).file? p = some f ∧ (k, x) ∈ f.data := by
  cases hf : t.file? p with
  | none =>
    rw [Tree.file?_appendTo_none hf, if_pos hw]
    exact ⟨_, rfl, List.mem_singleton_self _⟩
  | some f =>
    rw [Tree.file?_appendTo_self hf, LawfulContent.size_block, if_neg (byteSize_ne_zero hx)]
    exact ⟨_, rfl, List.mem_append_right _ (List.mem_singleton_self _)⟩

theorem Tame.writable {α : Type} {t : Tree Name α} (h : Tame t) (x : Name) : t.writable (x :: logDir) = true := by
  unfold Tree.writable
  rw [h.file x]
  simpa using h.dir

theorem hasSuffix_log {log : Name} (h : log ∈ logs) : Tree.hasSuffix ".log".toList (log :: logDir) = true :=
  decide_eq_true (suffix_of_mem_logs log h)

/-- **What a step prints is in a log after it.** -/
theorem step_printed {s : Step Cmd (Tree Name Blocks)} (hc : Scripted s.cmd) (ht : Tame s.before) {log : Name}
    {x : Text}
    (hmsg : ∀ dir, s.cmd = .findGzip dir log → s.before.compresses dir (log :: logDir) → s.moment.out = [])
    (hp : printed s = some (log, x)) (hx : x ≠ []) : Held (s.after (shell Blocks)) log (s.moment.tick, x) := by
  obtain ⟨c, mo, t⟩ := s
  dsimp only at hc ht hmsg
  have hw := ht.writable log
  have happend : ∀ t' : Tree Name Blocks, t'.writable (log :: logDir) = true →
      Held (t'.appendTo mo.now (log :: logDir) (Content.block mo.tick x)) log (mo.tick, x) := by
    intro t' hw'
    obtain ⟨f, hf, hb⟩ := mem_appendTo (t := t') (n := mo.now) (k := mo.tick) hw' hx
    exact ⟨log, f, List.prefix_refl _, hf, hb⟩
  cases c with
  | print y l =>
    obtain ⟨rfl, rfl⟩ : l = log ∧ y = x := by simpa [printed] using hp
    exact happend t hw
  | output l =>
    obtain ⟨rfl, rfl⟩ : l = log ∧ mo.out = x := by simpa [printed] using hp
    exact happend t hw
  | findGzip dir l =>
    obtain ⟨rfl, rfl⟩ : l = log ∧ mo.out = x := by simpa [printed] using hp
    obtain ⟨-, rfl⟩ := hc
    rw [after_mk, effect, Tree.findGzip_eq_appendTo mo.now _ (hasSuffix_log (by decide)) hw
      fun hc => hx (hmsg dir rfl hc)]
    refine happend _ ?_
    unfold Tree.writable at hw ⊢
    simpa using hw
  | mkdir | findDelete | prune | rotate => simp [printed] at hp

/-- A file with more in it holds what it held. -/
theorem mem_of_kept {p q : Path} {f g : File Blocks} {a : Blocks} {b : ℕ × Text}
    (h : g = f ∨ (p = q ∧ g.data = f.data ++ a)) (hb : b ∈ f.data) : b ∈ g.data := by
  rcases h with rfl | ⟨-, h⟩
  · exact hb
  · rw [h]
    exact List.mem_append_left _ hb

/-- **A step keeps a block in its family, or retires it**, if a rename finds
its new name free. -/
theorem step_held {s : Step Cmd (Tree Name Blocks)} (hc : Scripted s.cmd) (ht : Tame s.before)
    (hfree : ∀ l, renamed s = some l → s.before.file? (rotated l s.moment.now :: logDir) = none) {log : Name}
    {b : ℕ × Text} (h : Held s.before log b) : Held (s.after (shell Blocks)) log b ∨ Retired s log b := by
  obtain ⟨c, mo, t⟩ := s
  dsimp only at hc ht hfree h
  obtain ⟨x, f, hx, hf, hb⟩ := h
  have happend : ∀ (l : Name) (a : Blocks), Held (t.appendTo mo.now (l :: logDir) a) log b := by
    intro l a
    obtain ⟨g, hg, hgf⟩ := Tree.appendTo_keeps mo.now (l :: logDir) a hf
    exact ⟨x, g, hx, hg, mem_of_kept hgf hb⟩
  have hretire : ∀ c : Cmd, c.isRetention = true → ((effect c mo t).file? (x :: logDir) = some f ∨
      (effect c mo t).file? (x :: logDir) = none) → Held (effect c mo t) log b ∨ Retired ⟨c, mo, t⟩ log b := by
    intro c hret hafter
    exact hafter.imp (fun hk => ⟨x, f, hx, hk, hb⟩) fun hg => ⟨hret, x, f, hx, hf, hb, hg⟩
  cases c with
  | mkdir d => exact Or.inl ⟨x, f, hx, by simpa [effect] using hf, hb⟩
  | print y l => exact Or.inl (happend l _)
  | output l => exact Or.inl (happend l _)
  | findDelete dir suf days =>
    refine hretire (.findDelete dir suf days) rfl ?_
    rw [effect, Tree.file?_findDelete, hf]
    cases ha : Tree.aged dir suf days mo.now (x :: logDir) f <;> simp [Option.filter, ha]
  | findGzip dir l =>
    obtain ⟨-, rfl⟩ := hc
    have hclean : Tree.hasSuffix ".log".toList (cleanLog :: logDir) = true := hasSuffix_log (by decide)
    rcases Tree.findGzip_keeps mo.now dir (Content.block mo.tick mo.out) hclean hf with ⟨g, hg, hgf⟩ | ⟨-, -, -, hg, -⟩
    · exact Or.inl ⟨x, g, hx, hg, mem_of_kept hgf hb⟩
    · exact Or.inl ⟨x ++ ".gz".toList, f, hx.trans (List.prefix_append _ _), hg, hb⟩
  | prune cwd pre keep =>
    refine hretire (.prune cwd pre keep) rfl ?_
    rw [ht.effect_prune hc mo, Tree.file?_removeAll, hf]
    split
    · exact Or.inr rfl
    · exact Or.inl rfl
  | rotate l =>
    cases hlive : t.file? (l :: logDir) with
    | none =>
      rw [after_mk, effect, Tree.mvFile_of_none hlive]
      exact Or.inl ⟨x, f, hx, hf, hb⟩
    | some g =>
      have hnew := hfree l (renamed_eq_some.mpr ⟨rfl, Option.isSome_iff_exists.mpr ⟨g, hlive⟩⟩)
      have hafter := Tree.file?_mvFile mo.now hlive (ht.file (rotated l mo.now))
      rw [after_mk, effect]
      by_cases hxl : x = l
      · -- the live log: its text is in the renamed file now
        subst hxl
        obtain rfl : g = f := Option.some.inj (hlive.symm.trans hf)
        refine Or.inl ⟨rotated x mo.now, g, hx.trans (List.prefix_append _ _), ?_, hb⟩
        rw [hafter, if_neg, if_pos rfl]
        intro e
        rw [e, hlive] at hnew
        cases hnew
      · refine Or.inl ⟨x, f, hx, ?_, hb⟩
        rw [hafter, if_neg, if_neg, hf]
        · rintro e
          rw [← e, hf] at hnew
          cases hnew
        · exact fun e => hxl (List.cons.inj e).1

/-! ### Every interleaving -/

theorem Spaced.of_append {p q : List (Step Cmd (Tree Name Blocks))} (h : Spaced (p ++ q)) : Spaced p :=
  ⟨(List.pairwise_append.mp h.renames).1, fun s hs => h.messages s (List.mem_append_left _ hs)⟩

/-- A machine that has lost nothing loses nothing in the next step. -/
theorem Lossless.execCmd {start : ℕ} {m : Machine Cmd (Tree Name Blocks)} (h : Lossless m) (hr : Recorded start m)
    (w : World) {c : Cmd} (hc : Scripted c) (hs : Spaced (m.past ++ [m.step w c])) :
    Lossless (execCmd (shell Blocks) w m c) := by
  have hfree : ∀ l, renamed (m.step w c) = some l → m.state.file? (rotated l (m.moment w).now :: logDir) = none := by
    intro l hl
    obtain rfl : c = .rotate l := (renamed_eq_some.mp hl).1
    exact hr.free w hc fun s hsp hsl =>
      (List.pairwise_append.mp hs.renames).2.2 s hsp _ (List.mem_singleton_self _) l hsl hl
  refine ⟨fun s hsp log t hp ht => ?_, fun s hsp log hl => ?_⟩
  · rw [execCmd_past, List.mem_append, List.mem_singleton] at hsp
    rcases hsp with hsp | rfl
    · rcases h.kept s hsp log t hp ht with hheld | ⟨r, hrp, hret⟩
      · exact (step_held hc hr.tame hfree hheld).imp id fun hret => ⟨_, by simp, hret⟩
      · exact Or.inr ⟨r, by simp [hrp], hret⟩
    · exact Or.inl (step_printed hc hr.tame (fun dir => hs.messages _ (by simp) dir log) hp ht)
  · rw [execCmd_past, List.mem_append, List.mem_singleton] at hsp
    rcases hsp with hsp | rfl
    · exact h.free s hsp log hl
    · exact hfree log hl

/-- Writing is neither renaming nor compressing. -/
theorem spaced_of_writing (ls : List Name) {past : List (Step Cmd (Tree Name Blocks))}
    (h : ∀ s ∈ past, Writing ls s.cmd) : Spaced past := by
  have hcmd : ∀ s ∈ past, ∀ log, renamed s ≠ some log := by
    intro s hs log hr
    have hw := h s hs
    rw [(renamed_eq_some.mp hr).1] at hw
    exact hw
  refine ⟨List.pairwise_of_forall_mem_list fun s hs s' _ log hl => absurd hl (hcmd s hs log), fun s hs dir log hc => ?_⟩
  have hw := h s hs
  rw [hc] at hw
  exact hw.elim

section Growing

variable {α : Type} [Content α] [LawfulContent α]

/-- A log that is written to does not get smaller. -/
theorem size_writing (w : World) {log : Name} (cs : List Cmd) (hcs : ∀ c ∈ cs, Writing [log] c)
    {m : Machine Cmd (Tree Name α)} {k : ℕ} (h : ∃ f, m.state.file? (log :: logDir) = some f ∧ k < f.size) :
    ∃ f, (cs.foldl (execCmd (shell α) w) m).state.file? (log :: logDir) = some f ∧ k < f.size := by
  refine foldl_execCmd_induct (I := fun m => ∃ f, m.state.file? (log :: logDir) = some f ∧ k < f.size)
    (shell α) w cs (fun c hc m h => ?_) m h
  obtain ⟨f, hf, hk⟩ := h
  have happend : ∀ (l : Name) (a : α),
      ∃ g, (m.state.appendTo (m.moment w).now (l :: logDir) a).file? (log :: logDir) = some g ∧ k < g.size := by
    intro l a
    obtain ⟨g, hg, hgf⟩ := Tree.appendTo_keeps (m.moment w).now (l :: logDir) a hf
    refine ⟨g, hg, ?_⟩
    rcases hgf with rfl | ⟨-, hgf⟩
    · exact hk
    · rw [File.size, hgf, LawfulContent.size_append]
      exact Nat.lt_add_right _ hk
  have hc := hcs c hc
  cases c with
  | mkdir d => exact ⟨f, (Tree.file?_mkdirP ..).trans hf, hk⟩
  | print t l => exact happend l _
  | output l => exact happend l _
  | findDelete | findGzip | prune | rotate => exact hc.elim

/-- A command that prints more than a log may hold makes it oversize. -/
theorem oversize_of_output {w : World} (hout : ∀ k, maxSize < byteSize (w.out k)) {log : Name} (hlog : log ∈ logs)
    (cs ds : List Cmd) (hcs : ∀ c ∈ cs, Writing [log] c) (hds : ∀ c ∈ ds, Writing [log] c)
    {m : Machine Cmd (Tree Name α)} (ht : Tame m.state) :
    holds (.oversize log) ((cs ++ .output log :: ds).foldl (execCmd (shell α) w) m).state = true := by
  have ht' : Tame (cs.foldl (execCmd (shell α) w) m).state :=
    foldl_execCmd_induct (I := fun m => Tame m.state) (shell α) w cs
      (fun c hc m h => h.effect ((hcs c hc).scripted (by simpa using hlog)) _) m ht
  rw [holds_oversize, List.foldl_append, List.foldl_cons]
  refine size_writing w ds hds ?_
  have hbig := hout (cs.foldl (execCmd (shell α) w) m).tick
  rw [execCmd_shell, effect]
  cases hf : (cs.foldl (execCmd (shell α) w) m).state.file? (log :: logDir) with
  | none =>
    rw [Tree.file?_appendTo_none hf, if_pos (ht'.writable log)]
    refine ⟨_, rfl, ?_⟩
    rw [File.size, LawfulContent.size_block]
    exact hbig
  | some f =>
    refine ⟨_, Tree.file?_appendTo_self hf, ?_⟩
    rw [LawfulContent.size_block, if_neg (by simp [Machine.moment]; omega), File.size, LawfulContent.size_append,
      LawfulContent.size_block]
    exact Nat.lt_add_left _ hbig

end Growing

/-- What is in a file after appending was there or was appended. -/
theorem of_mem_appendTo {t : Tree Name Blocks} {n : ℕ} {p : Path} {a : Blocks} {g : File Blocks} {b : ℕ × Text}
    (h : (t.appendTo n p a).file? p = some g) (hb : b ∈ g.data) : (∃ f, t.file? p = some f ∧ b ∈ f.data) ∨ b ∈ a := by
  cases hf : t.file? p with
  | none =>
    rw [Tree.file?_appendTo_none hf] at h
    split at h
    · rw [Option.some.injEq] at h
      subst h
      exact Or.inr hb
    · cases h
  | some f =>
    rw [Tree.file?_appendTo_self hf, Option.some.injEq] at h
    subst h
    split at hb
    · exact Or.inl ⟨f, rfl, hb⟩
    · exact (List.mem_append.mp hb).imp (fun hb => ⟨f, rfl, hb⟩) id

/-- A log to which nothing older than action `k` was written stays so. -/
theorem tick_le_of_writing (w : World) {log : Name} (cs : List Cmd) (hcs : ∀ c ∈ cs, Writing [log] c)
    {m : Machine Cmd (Tree Name Blocks)} {k : ℕ} (hk : k ≤ m.tick)
    (h : ∀ f, m.state.file? (log :: logDir) = some f → ∀ b ∈ f.data, k ≤ b.1) :
    ∀ f, (cs.foldl (execCmd (shell Blocks) w) m).state.file? (log :: logDir) = some f → ∀ b ∈ f.data, k ≤ b.1 := by
  refine (foldl_execCmd_induct (I := fun m => k ≤ m.tick ∧
    ∀ f, m.state.file? (log :: logDir) = some f → ∀ b ∈ f.data, k ≤ b.1) (shell Blocks) w cs ?_ m ⟨hk, h⟩).2
  rintro c hc m ⟨hk, h⟩
  refine ⟨Nat.le_succ_of_le hk, ?_⟩
  have happend : ∀ (x : Text) (g : File Blocks), (m.state.appendTo (m.moment w).now (log :: logDir)
      (Content.block (m.moment w).tick x)).file? (log :: logDir) = some g → ∀ b ∈ g.data, k ≤ b.1 := by
    intro x g hg b hb
    rcases of_mem_appendTo hg hb with ⟨f, hf, hb⟩ | hb
    · exact h f hf b hb
    · rw [List.mem_singleton.mp hb]
      exact hk
  have hc := hcs c hc
  cases c with
  | mkdir d => exact fun f hf => h f ((Tree.file?_mkdirP ..).symm.trans hf)
  | print x l =>
    obtain rfl : l = log := List.mem_singleton.mp hc
    exact happend x
  | output l =>
    obtain rfl : l = log := List.mem_singleton.mp hc
    exact happend _
  | findDelete | findGzip | prune | rotate => exact hc.elim

/-- What an upload does before it waits for the server. -/
def uploadBegin (data : Text) (current : ℕ) : List Line :=
  uploadFirst current ++ [.cmd (.echo "准备上传的数据:".toList uploadLog), .cmd (.echo data uploadLog)]

/-- What it writes when the server has answered. -/
def uploadAnswer : List Cmd :=
  [.echo "上传成功! 响应:".toList uploadLog, .output uploadLog, .echo (closing "事件上传完成") uploadLog,
    .echo [] uploadLog]

/-- What it does from then on. -/
def uploadEnd : List Line := uploadAnswer.map Stmt.cmd ++ [rotateStmt uploadLog]

theorem uploadEvents_split (data : Text) (current : ℕ) :
    uploadEvents data true current = uploadBegin data current ++ uploadEnd := rfl

theorem uploadAnswer_writing : ∀ c ∈ uploadAnswer, Writing [uploadLog] c := by
  have hlog : uploadLog ∈ [uploadLog] := List.mem_singleton_self _
  simp only [uploadAnswer, List.forall_mem_cons, List.not_mem_nil, false_imp_iff, implies_true, and_true]
  exact ⟨hlog, hlog, hlog, hlog⟩

/-- Every action takes `d`, and every program prints more than a log may
hold. -/
def flood (d : ℕ) : World := ⟨fun _ => d, fun _ => List.replicate 1048577 'x'⟩

theorem byteSize_flood (d k : ℕ) : maxSize < byteSize ((flood d).out k) := by
  rw [flood, byteSize_replicate _ _ (by decide)]
  decide

/-- The end of an upload with a large answer moves the log to its new name,
whatever is there. -/
theorem upload_ends {m : Machine Cmd (Tree Name Blocks)} (ht : Tame m.state) :
    ∃ f, (∀ x, (exec (shell Blocks) (flood 0) uploadEnd m).state.file? (x :: logDir) =
        if x = uploadLog then none else if x = rotated uploadLog m.now then some f else m.state.file? (x :: logDir)) ∧
      (m.state.file? (uploadLog :: logDir) = none → ∀ b ∈ f.data, m.tick ≤ b.1) := by
  obtain ⟨m', hm'⟩ : ∃ m', m' = uploadAnswer.foldl (execCmd (shell Blocks) (flood 0)) m := ⟨_, rfl⟩
  have hexec : exec (shell Blocks) (flood 0) uploadEnd m = execStmt (shell Blocks) (flood 0) m' (rotateStmt uploadLog) := by
    rw [uploadEnd, exec_append, exec_map_cmd, ← hm']
    rfl
  have hw := uploadAnswer_writing
  have hover : holds (.oversize uploadLog) m'.state = true := by
    rw [hm']
    exact oversize_of_output (byteSize_flood 0) (by decide) [.echo _ uploadLog] [.echo _ uploadLog, .echo _ uploadLog]
      (fun c hc => hw c (List.mem_append_left _ hc)) (fun c hc => hw c (by simp only [uploadAnswer]; grind)) ht
  have hnow : m'.now = m.now := by
    rw [hm', ← exec_map_cmd]
    exact now_exec_of_delay _ _ (fun _ => rfl) _ _
  obtain ⟨n, hn, hn', hfile⟩ := file?_rotateStmt (flood 0) m' uploadLog fun n => by
    have ht' : Tame m'.state := by
      rw [hm']
      exact foldl_execCmd_induct (I := fun m => Tame m.state) (shell Blocks) (flood 0) uploadAnswer
        (fun c hc m h => h.effect ((hw c hc).scripted (by decide)) _) m ht
    exact ht'.file _
  have hstill : (execStmt (shell Blocks) (flood 0) m' (rotateStmt uploadLog)).now = m'.now :=
    now_exec_of_delay (shell Blocks) (flood 0) (fun _ => rfl) [rotateStmt uploadLog] m'
  obtain rfl : n = m.now := by omega
  obtain ⟨f, hf, -⟩ := holds_oversize.mp hover
  refine ⟨f, fun x => ?_, fun hnone b hb => ?_⟩
  · rw [hexec, hfile x, renamedFiles, if_pos hover, hf]
    by_cases hx : x = uploadLog
    · rw [if_pos hx, if_pos hx]
    · have hsame : m'.state.file? (x :: logDir) = m.state.file? (x :: logDir) := by
        rw [hm', ← exec_map_cmd]
        exact file?_writing (only_map_cmd hw) (by simpa using hx) m
      rw [if_neg hx, if_neg hx, hsame]
  · rw [hm'] at hf
    exact tick_le_of_writing (flood 0) uploadAnswer hw le_rfl (by simp [hnone]) f hf b hb

theorem uploadBegin_only (data : Text) (current : ℕ) : Only (Writing [uploadLog]) (uploadBegin data current) := by
  have hlog : uploadLog ∈ [uploadLog] := List.mem_singleton_self _
  refine only_map_cmd (l := [.mkdir logDir, .echo _ uploadLog, .echo _ uploadLog, .echo data uploadLog]) ?_
  simp only [List.forall_mem_cons, List.not_mem_nil, false_imp_iff, implies_true, and_true]
  exact ⟨rfl, hlog, hlog, hlog⟩

theorem uploadEnd_only : Only (Logging uploadLog) uploadEnd :=
  Only.append ((only_map_cmd uploadAnswer_writing).mono fun _ => Or.inl) (only_rotateStmt (Or.inr rfl))

theorem Tame.exec {α : Type} [Content α] (w : World) {prog : List Line} (hp : Only Scripted prog)
    {m : Machine Cmd (Tree Name α)} (h : Tame m.state) : Tame (exec (shell α) w prog m).state :=
  exec_induct (I := fun m => Tame m.state) (shell α) w prog (fun s hs c hc _ h => h.effect (hp s hs c hc) _)
    (fun _ h => h) m h

section TwoUploads

variable (data : Text)

/-- An upload waits for the server. -/
def oneBegun : Machine Cmd (Tree Name Blocks) :=
  exec (shell Blocks) (flood 0) (uploadBegin data 0) (.start (freshTree Blocks) 0)

/-- And a second one. -/
def bothBegun : Machine Cmd (Tree Name Blocks) :=
  exec (shell Blocks) (flood 0) (uploadBegin data (oneBegun data).now) (oneBegun data)

/-- The first one ends. -/
def oneEnded : Machine Cmd (Tree Name Blocks) := exec (shell Blocks) (flood 0) uploadEnd (bothBegun data)

/-- And the second one. -/
def bothEnded : Machine Cmd (Tree Name Blocks) := exec (shell Blocks) (flood 0) uploadEnd (oneEnded data)

theorem tame_bothBegun : Tame (bothBegun data).state := by
  have hbegin := fun n => (uploadBegin_only data n).mono fun c => Writing.scripted (by decide : [uploadLog] ⊆ logs)
  exact Tame.exec (flood 0) (hbegin _) (Tame.exec (flood 0) (hbegin 0) (empty_freshTree Blocks).tame)

theorem tame_oneEnded : Tame (oneEnded data).state :=
  Tame.exec (flood 0) (uploadEnd_only.mono fun c => Logging.scripted (by decide : uploadLog ∈ logs)) (tame_bothBegun data)

theorem file?_bothBegun {x : Name} (hx : x ≠ uploadLog) : (bothBegun data).state.file? (x :: logDir) = none := by
  have hx : x ∉ [uploadLog] := by simpa using hx
  rw [bothBegun, file?_writing (uploadBegin_only data _) hx, oneBegun, file?_writing (uploadBegin_only data 0) hx]
  simp [Machine.start, Tree.file?, (empty_freshTree Blocks).node x]

/-- In the end there is nothing in the directory but what the second one wrote
when the first one had ended. -/
theorem tick_le_bothEnded {x : Name} {f : File Blocks} (h : (bothEnded data).state.file? (x :: logDir) = some f) :
    ∀ b ∈ f.data, (oneEnded data).tick ≤ b.1 := by
  obtain ⟨f₁, hone, -⟩ := upload_ends (tame_bothBegun data)
  obtain ⟨f₂, hboth, hnew⟩ := upload_ends (tame_oneEnded data)
  have hlive : (oneEnded data).state.file? (uploadLog :: logDir) = none := by rw [oneEnded, hone, if_pos rfl]
  have hnow : (oneEnded data).now = (bothBegun data).now := now_exec_of_delay _ _ (fun _ => rfl) _ _
  rw [bothEnded, hboth x] at h
  split at h
  case isTrue => cases h
  case isFalse hx =>
    split at h
    case isTrue =>
      obtain rfl : f₂ = f := Option.some.inj h
      exact hnew hlive
    case isFalse hx' =>
      -- the renamed file of the first one had the same name
      rw [oneEnded, hone x, if_neg hx, ← hnow, if_neg hx', file?_bothBegun data hx] at h
      cases h

/-- The heading of the first upload, printed by the second action. -/
def firstHeading : Step Cmd (Tree Name Blocks) :=
  (execCmd (shell Blocks) (flood 0) (.start (freshTree Blocks) 0) (.mkdir logDir)).step (flood 0)
    (.echo (opening "事件上传开始" 0) uploadLog)

theorem oneBegun_eq : ∃ rest, oneBegun data = exec (shell Blocks) (flood 0) rest
    (execCmd (shell Blocks) (flood 0) (execCmd (shell Blocks) (flood 0) (.start (freshTree Blocks) 0) (.mkdir logDir))
      (.echo (opening "事件上传开始" 0) uploadLog)) :=
  ⟨_, rfl⟩

theorem firstHeading_mem : firstHeading ∈ (bothEnded data).past := by
  obtain ⟨rest, hrest⟩ := oneBegun_eq data
  refine past_subset_exec _ _ _ _ (past_subset_exec _ _ _ _ (past_subset_exec _ _ _ _ ?_))
  rw [hrest]
  refine past_subset_exec _ _ _ _ ?_
  rw [execCmd_past]
  exact List.mem_append_right _ (List.mem_singleton_self _)

theorem firstHeading_lt : firstHeading.moment.tick < (oneEnded data).tick := by
  obtain ⟨rest, hrest⟩ := oneBegun_eq data
  have hlt : firstHeading.moment.tick < (oneBegun data).tick := by
    rw [hrest]
    refine lt_of_lt_of_le ?_ (tick_le_exec _ _ rest _)
    exact Nat.lt_succ_self _
  exact (hlt.trans_le (tick_le_exec _ _ _ _)).trans_le (tick_le_exec _ _ _ _)

theorem logging_bothEnded : ∀ s ∈ (bothEnded data).past, Logging uploadLog s.cmd := by
  have hbegin := fun n => (uploadBegin_only data n).mono fun c => (Or.inl : _ → Logging uploadLog c)
  refine cmd_of_mem_past _ _ _ uploadEnd_only _ (cmd_of_mem_past _ _ _ uploadEnd_only _ ?_)
  exact cmd_of_mem_past _ _ _ (hbegin _) _ (cmd_of_mem_past _ _ _ (hbegin 0) _ nofun)

theorem Logging.isRetention_eq_false {log : Name} {c : Cmd} (h : Logging log c) : c.isRetention = false := by
  rcases h with h | rfl
  · cases c with
    | findDelete | prune => exact h.elim
    | mkdir | print | output | findGzip | rotate => rfl
  · rfl

/-- The heading of the first upload is in no file. -/
theorem not_lossless_bothEnded : ¬ Lossless (bothEnded data) := by
  intro h
  rcases h.kept firstHeading (firstHeading_mem data) uploadLog (opening "事件上传开始" 0 ++ ['\n']) rfl (by simp) with
    ⟨x, f, -, hf, hmem⟩ | ⟨r, hr, hret, -⟩
  · exact absurd (tick_le_bothEnded data hf _ hmem) (Nat.not_le.mpr (firstHeading_lt data))
  · rw [(logging_bothEnded data r hr).isRetention_eq_false] at hret
    cases hret

/-- It is an interleaving of two scripts. -/
theorem run_bothEnded : ∃ es : List (Event Cmd Test),
    (∀ script, Event.start script ∈ es → script = uploadEvents data true) ∧
      (Config.run (shell Blocks) (flood 0) ⟨.start (freshTree Blocks) 0, []⟩ es).machine = bothEnded data := by
  obtain ⟨n₁, h₁⟩ : ∃ n, Config.run (shell Blocks) (flood 0)
      ⟨.start (freshTree Blocks) 0, [uploadBegin data 0 ++ uploadEnd]⟩ (List.replicate n (.go 0)) =
        ⟨oneBegun data, [uploadEnd]⟩ :=
    Config.run_alone (shell Blocks) (flood 0) [] [] uploadEnd (uploadBegin data 0) _
  obtain ⟨n₂, h₂⟩ : ∃ n, Config.run (shell Blocks) (flood 0)
      ⟨oneBegun data, [uploadEnd, uploadBegin data (oneBegun data).now ++ uploadEnd]⟩ (List.replicate n (.go 1)) =
        ⟨bothBegun data, [uploadEnd, uploadEnd]⟩ :=
    Config.run_alone (shell Blocks) (flood 0) [uploadEnd] [] uploadEnd (uploadBegin data _) _
  obtain ⟨n₃, h₃⟩ : ∃ n, Config.run (shell Blocks) (flood 0) ⟨bothBegun data, [uploadEnd, uploadEnd]⟩
      (List.replicate n (.go 0)) = ⟨oneEnded data, [[], uploadEnd]⟩ :=
    Config.run_alone (shell Blocks) (flood 0) [] [uploadEnd] [] uploadEnd _
  obtain ⟨n₄, h₄⟩ : ∃ n, Config.run (shell Blocks) (flood 0) ⟨oneEnded data, [[], uploadEnd]⟩
      (List.replicate n (.go 1)) = ⟨bothEnded data, [[], []]⟩ :=
    Config.run_alone (shell Blocks) (flood 0) [[]] [] [] uploadEnd _
  have hstart : ∀ (m : Machine Cmd (Tree Name Blocks)) ps,
      Config.step (shell Blocks) (flood 0) ⟨m, ps⟩ (.start (uploadEvents data true)) =
        ⟨m, ps ++ [uploadBegin data m.now ++ uploadEnd]⟩ := fun _ _ => rfl
  have hzero : (Machine.start (freshTree Blocks) 0 : Machine Cmd (Tree Name Blocks)).now = 0 := rfl
  refine ⟨.start (uploadEvents data true) :: (List.replicate n₁ (.go 0) ++ .start (uploadEvents data true) ::
    (List.replicate n₂ (.go 1) ++ (List.replicate n₃ (.go 0) ++ List.replicate n₄ (.go 1)))), ?_, ?_⟩
  · intro script hs
    simpa [List.mem_replicate] using hs
  · rw [Config.run_cons, hstart, hzero, List.nil_append, Config.run_append, h₁, Config.run_cons, hstart,
      List.singleton_append, Config.run_append, h₂, Config.run_append, h₃, h₄]

end TwoUploads

end Croner
end OpsScripts
