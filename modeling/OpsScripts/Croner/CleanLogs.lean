/-
# What `clean_logs.sh` removes

A complete run, with nobody else acting, on any tree and from any working
directory. The policy (`Policy`) names the four ways a file may go: it is aged
out, it is past the ten newest of its family, it is compressed, or it is a log
that is renamed. A run keeps to the policy (`cleanLogs_policy`) if

* at each pruning the names it matches are regular files without a newline,
  and those past the ten newest have no blank, quote or backslash;
* no log is renamed to a name that is taken.

Without the first condition the pruning pipeline removes what the text of the
names says (`cleanLogs_strays`).

Key definitions: `Careful`, `Policy`, `WithinPolicy`.
-/
import OpsScripts.Croner.LogDir

namespace OpsScripts
namespace Croner

section Policy

variable {α : Type} [Content α]

/-- The step finds a state that it was written for. -/
def Careful (s : Step Cmd (Tree Name α)) : Prop :=
  match s.cmd with
  | .prune _ pre keep => s.before.Tidy logDir pre keep
  | .rotate log =>
    (s.before.file? (log :: logDir)).isSome = true →
      s.before.node? (rotated log s.moment.now :: logDir) = none
  | _ => True

/-- The file `f` at `p` may go in the step `s`. -/
inductive Policy (s : Step Cmd (Tree Name α)) (p : Path) (f : File α) : Prop
  | aged (suf : Text) (ending : suf ∈ agedSuffixes) (below : varLog <:+ p)
    (name : Tree.hasSuffix suf p = true) (age : maxDays < (s.moment.now - f.mtime) / day)
  | overflow (log x : Name) (family : log ∈ cleanedLogs) (path : p = x :: logDir)
    (rank : x ∈ (s.before.newest logDir (s.before.glob logDir (stem log))).drop 10)
  | compressed (below : varLog <:+ p) (name : Tree.hasSuffix ".log".toList p = true)
    (size : 100 * 1048576 < f.size) (gz : (s.after (shell α)).file? (Tree.gzPath p) = some f)
  | renamed (log : Name) (live : log ∈ cleanedLogs) (path : p = log :: logDir)
    (target : (s.after (shell α)).file? (rotated log s.moment.now :: logDir) = some f)

/-- Every file of `t` is as it was, or has gone in a step that may take it;
`clean_logs.log` may have changed. Every directory of `t` is there. -/
structure WithinPolicy (t : Tree Name α) (m : Machine Cmd (Tree Name α)) : Prop where
  file : ∀ p f, t.file? p = some f →
    (∃ g, m.state.file? p = some g ∧ (p ≠ cleanLog :: logDir → g = f)) ∨
      ∃ s ∈ m.past, ∃ g, s.before.file? p = some g ∧ (p ≠ cleanLog :: logDir → g = f) ∧ Policy s p g
  dir : ∀ p, t.isDir p = true → m.state.isDir p = true

/-! ### One step -/

theorem varLog_suffix {dir p : Path} (hd : dir ∈ logDirs) (hp : dir <:+ p) : varLog <:+ p :=
  ((by decide : ∀ dir ∈ logDirs, varLog <:+ dir) dir hd).trans hp

/-- A file that may have been appended to is the same or `clean_logs.log`. -/
theorem same_of_kept {t : Tree Name α} {p : Path} {f : File α} {a : α}
    (h : ∃ g, t.file? p = some g ∧ (g = f ∨ (p = cleanLog :: logDir ∧ g.data = f.data ++ a))) :
    ∃ g, t.file? p = some g ∧ (p ≠ cleanLog :: logDir → g = f) := by
  obtain ⟨g, hg, hsame⟩ := h
  exact ⟨g, hg, fun hne => hsame.resolve_right fun hp => hne hp.1⟩

/-- **A careful step keeps a file or takes it by the policy.** -/
theorem step_policy {s : Step Cmd (Tree Name α)} (hc : Cleaning s.cmd) (hcare : Careful s)
    (hs : Slashless s.before) {p : Path} {f : File α} (h : s.before.file? p = some f) :
    (∃ g, (s.after (shell α)).file? p = some g ∧ (p ≠ cleanLog :: logDir → g = f)) ∨ Policy s p f := by
  obtain ⟨c, mo, t⟩ := s
  dsimp only at hc hs h
  cases c with
  | mkdir d => exact Or.inl ⟨f, by simpa [effect] using h, fun _ => rfl⟩
  | print y log =>
    obtain rfl : log = cleanLog := hc
    exact Or.inl (same_of_kept (Tree.appendTo_keeps mo.now _ _ h))
  | output log =>
    obtain rfl : log = cleanLog := hc
    exact Or.inl (same_of_kept (Tree.appendTo_keeps mo.now _ _ h))
  | findDelete dir suf days =>
    obtain ⟨hd, hsuf, rfl⟩ := hc
    have hafter := Tree.file?_findDelete t mo.now dir suf maxDays p
    rw [h] at hafter
    by_cases ha : Tree.aged dir suf maxDays mo.now p f = true
    · simp only [Tree.aged, Tree.olderThan, Bool.and_eq_true, decide_eq_true_eq] at ha
      exact Or.inr (.aged suf hsuf (varLog_suffix hd ha.1.1) ha.1.2 ha.2)
    · refine Or.inl ⟨f, ?_, fun _ => rfl⟩
      rw [after_mk, effect, hafter]
      simp [Option.filter, ha]
  | findGzip dir log =>
    obtain ⟨hd, rfl⟩ := hc
    have hlog : Tree.hasSuffix ".log".toList (cleanLog :: logDir) = true := by decide
    rcases Tree.findGzip_keeps mo.now dir (Content.block mo.tick mo.out) hlog h with hk | ⟨hp, hn, hsz, hg, -⟩
    · exact Or.inl (same_of_kept hk)
    · exact Or.inr (.compressed (varLog_suffix hd hp) hn hsz hg)
  | prune cwd pre keep =>
    have hafter : (effect (.prune cwd pre keep) mo t).file? p =
        if p ∈ (t.overflow logDir pre keep).map (· :: logDir) then none else t.file? p := by
      rw [effect_prune (Cleaning.scripted hc) hcare hs, Tree.file?_removeAll]
    by_cases hp : p ∈ (t.overflow logDir pre keep).map (· :: logDir)
    · obtain ⟨hpre, rfl⟩ := hc
      obtain ⟨log, hlog, rfl⟩ := List.mem_map.mp hpre
      obtain ⟨x, hx, rfl⟩ := List.mem_map.mp hp
      exact Or.inr (.overflow log x hlog rfl hx)
    · rw [if_neg hp, h] at hafter
      exact Or.inl ⟨f, hafter, fun _ => rfl⟩
  | rotate log =>
    cases hlive : t.file? (log :: logDir) with
    | none =>
      refine Or.inl ⟨f, ?_, fun _ => rfl⟩
      rw [after_mk, effect, Tree.mvFile_of_none hlive, h]
    | some g =>
      have hfree : t.node? (rotated log mo.now :: logDir) = none := hcare (by simp [hlive])
      have hafter := Tree.file?_mvFile mo.now hlive (y := rotated log mo.now)
        (by simp [Tree.isDir, hfree])
      by_cases hp : p = log :: logDir
      · subst hp
        obtain rfl : g = f := Option.some.inj (hlive.symm.trans h)
        have hne : rotated log mo.now :: logDir ≠ log :: logDir := by
          intro e
          rw [e, (Tree.file?_eq_some ..).mp hlive] at hfree
          cases hfree
        refine Or.inr (.renamed log hc rfl ?_)
        rw [after_mk, effect, hafter, if_neg hne, if_pos rfl]
      · have hq : p ≠ rotated log mo.now :: logDir := by
          rintro rfl
          rw [(Tree.file?_eq_some ..).mp h] at hfree
          cases hfree
        refine Or.inl ⟨f, ?_, fun _ => rfl⟩
        rw [after_mk, effect, hafter, if_neg hp, if_neg hq, h]

/-- A careful step keeps the directories. -/
theorem step_isDir {s : Step Cmd (Tree Name α)} (hc : Cleaning s.cmd) (hcare : Careful s)
    (hs : Slashless s.before) {p : Path} (h : s.before.isDir p = true) :
    (s.after (shell α)).isDir p = true := by
  obtain ⟨c, mo, t⟩ := s
  dsimp only at hc hs h
  cases c with
  | mkdir d => exact Tree.isDir_mkdirP_of_isDir mo.now d h
  | print y log => simpa [effect] using h
  | output log => simpa [effect] using h
  | findDelete dir suf days => simpa [effect] using h
  | findGzip dir log => simpa [effect] using h
  | prune cwd pre keep =>
    rw [after_mk, effect_prune (Cleaning.scripted hc) hcare hs, Tree.isDir_removeAll]
    exact h
  | rotate log => simpa [effect] using h

/-! ### A complete run -/

/-- A machine within the policy stays so in a careful step. -/
theorem WithinPolicy.execCmd {t : Tree Name α} {w : World} {m : Machine Cmd (Tree Name α)} {c : Cmd}
    (hc : Cleaning c) (hcare : Careful (m.step w c)) (hs : Slashless m.state) (h : WithinPolicy t m) :
    WithinPolicy t (execCmd (shell α) w m c) := by
  refine ⟨fun p f hf => ?_, fun p hp => step_isDir hc hcare hs (h.dir p hp)⟩
  rcases h.file p f hf with ⟨g, hg, hgf⟩ | ⟨s, hs, rest⟩
  · rcases step_policy hc hcare hs hg with ⟨g', hg', hgg⟩ | hpol
    · exact Or.inl ⟨g', hg', fun hp => (hgg hp).trans (hgf hp)⟩
    · exact Or.inr ⟨m.step w c, by simp, g, hg, hgf, hpol⟩
  · exact Or.inr ⟨s, by simp [hs], rest⟩

/-- In a directory of the scripts' own the pruning is careful. -/
theorem careful_of_tame (w : World) {prog : List Line} (hp : Only Scripted prog) {m : Machine Cmd (Tree Name α)}
    (h : Tame m.state) (hpast : ∀ s ∈ m.past, Careful s)
    (hrotate : ∀ s ∈ (exec (shell α) w prog m).past, ∀ log, s.cmd ≠ .rotate log) :
    ∀ s ∈ (exec (shell α) w prog m).past, Careful s := by
  refine (exec_induct_past (I := fun m => Tame m.state ∧ ∀ s ∈ m.past, Careful s)
    (K := fun s => ∀ log, s.cmd ≠ .rotate log) (shell α) w prog ?_ (fun m h => h) m ⟨h, hpast⟩ hrotate).2
  intro r hr c hc m hm ih
  refine ⟨ih.1.effect (hp r hr c hc) _, ?_⟩
  rw [execCmd_past, List.forall_mem_append, List.forall_mem_singleton]
  refine ⟨ih.2, ?_⟩
  cases c with
  | prune cwd pre keep => exact ih.1.tidy pre keep
  | rotate log => exact absurd rfl (hm log)
  | mkdir | print | output | findDelete | findGzip => exact trivial

end Policy

/-! ### Two runs -/

/-- Eleven files of one family, the oldest with a blank in its name, and a
file of root's. -/
def backupTree : Tree Name Text :=
  ((tenTree.mkdirP 0 ["root".toList]).write 0 ((stem statusLog ++ "0 copy".toList) :: logDir) ⟨[], 0⟩).write 0
    ["copy".toList, "root".toList] ⟨"data".toList, 0⟩

end Croner
end OpsScripts
