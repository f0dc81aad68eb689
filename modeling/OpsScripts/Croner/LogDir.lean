/-
# What a command can do to the log directory

The names in `/var/log/cron` come from four sources: they were there, a
redirection made them (`logs`), `gzip` made them from another name, or a
rename did (`file?_of_effect`). From there on: in a directory that the scripts
have for themselves every name is a log, a compressed log or a renamed log
(`Tame`), and on those names the pruning pipeline removes what is past the ten
newest and nothing else (`Tame.tidy`).

Key definitions: `Made`, `Tame`.
Key theorems: `file?_of_effect`, `Tame.effect`, `rotated_inj`.
-/
import OpsScripts.Croner.Scripts

namespace OpsScripts
namespace Croner

/-! ### Names -/

theorem dateStamp_ne_nil (now : ℕ) : dateStamp now ≠ [] := by
  rw [dateStamp, stampOf]
  exact List.append_ne_nil_of_left_ne_nil (decimal_ne_nil _) _

/-- A renamed log ends in a digit. -/
theorem getLast?_rotated (log : Name) (now : ℕ) : ∃ c, (rotated log now).getLast? = some c ∧ c.isDigit = true := by
  obtain ⟨s, c, hs⟩ := (List.eq_nil_or_concat (dateStamp now)).resolve_left (dateStamp_ne_nil now)
  refine ⟨c, ?_, isDigit_of_mem_dateStamp (t := now) (by rw [hs]; simp)⟩
  rw [rotated, hs, List.concat_eq_append, ← List.cons_append, ← List.append_assoc, List.getLast?_concat]

/-- So it has none of the endings that are aged out or compressed. -/
theorem not_suffix_rotated {suf : Text} (hs : ∃ c, suf.getLast? = some c ∧ c.isDigit = false)
    (log : Name) (now : ℕ) : ¬ suf <:+ rotated log now := by
  rintro ⟨u, hu⟩
  obtain ⟨c, hc, hd⟩ := hs
  obtain ⟨e, he, hd'⟩ := getLast?_rotated log now
  rw [← hu, List.getLast?_append, hc] at he
  obtain rfl : c = e := Option.some.inj he
  rw [hd] at hd'
  cases hd'

theorem stem_prefix_rotated (log : Name) (now : ℕ) : stem log <+: rotated log now :=
  ⟨dateStamp now, by simp [stem, rotated]⟩

theorem stem_prefix_gz (log : Name) : stem log <+: log ++ ".gz".toList := ⟨"gz".toList, by simp [stem]⟩

theorem prefix_stem (log : Name) : log <+: stem log := ⟨['.'], rfl⟩

/-- No log's name begins with that of another one. -/
theorem logs_prefix_free : ∀ log ∈ logs, ∀ log' ∈ logs, log <+: log' → log = log' := by decide

theorem not_stem_prefix_log : ∀ log ∈ logs, ∀ log' ∈ logs, ¬ stem log <+: log' := by decide

theorem suffix_of_mem_logs : ∀ log ∈ logs, ".log".toList <:+ log := by decide

theorem plain_of_mem_logs : ∀ log ∈ logs, Plain log := by decide

theorem slash_notMem_of_mem_logs : ∀ log ∈ logs, '/' ∉ log := by decide

/-- Two logs that a name both begins with are the same. -/
theorem log_eq_of_prefixes {log log' x : Name} (hl : log ∈ logs) (hl' : log' ∈ logs) (h : log <+: x)
    (h' : log' <+: x) : log = log' :=
  (List.prefix_or_prefix_of_prefix h h').elim (logs_prefix_free log hl log' hl')
    fun h => (logs_prefix_free log' hl' log hl h).symm

/-- The name of a renamed log tells the log and the second. -/
theorem rotated_inj {log log' : Name} (hl : log ∈ logs) (hl' : log' ∈ logs) {now now' : ℕ} :
    rotated log now = rotated log' now' ↔ log = log' ∧ dateStamp now = dateStamp now' := by
  constructor
  · intro h
    have hlog' : log' <+: rotated log now := h ▸ List.prefix_append log' _
    have hlog : log = log' := log_eq_of_prefixes hl hl' (List.prefix_append log _) hlog'
    subst hlog
    exact ⟨rfl, (List.cons.inj (List.append_cancel_left h)).2⟩
  · rintro ⟨rfl, h⟩
    rw [rotated, rotated, h]

theorem plain_rotated {log : Name} (h : log ∈ logs) (now : ℕ) : Plain (rotated log now) := by
  have hdigit : ∀ c : Char, c.isDigit = true → isPlainChar c = true := by
    intro c hc
    by_contra hp
    simp only [isPlainChar, isBlank, Bool.not_eq_true', Bool.not_eq_false, Bool.or_eq_true, decide_eq_true_eq] at hp
    rcases hp with (((rfl | rfl | rfl) | rfl) | rfl) | rfl <;> exact absurd hc (by decide)
  intro c hc
  rw [rotated, List.mem_append, List.mem_cons] at hc
  rcases hc with hc | rfl | hc
  · exact plain_of_mem_logs log h c hc
  · decide
  · exact hdigit c (isDigit_of_mem_dateStamp hc)

theorem slash_notMem_rotated {log : Name} (h : log ∈ logs) (now : ℕ) : '/' ∉ rotated log now := by
  rw [rotated, List.mem_append, List.mem_cons]
  rintro (hc | hc | hc)
  · exact slash_notMem_of_mem_logs log h hc
  · exact absurd hc (by decide)
  · exact absurd (isDigit_of_mem_dateStamp hc) (by decide)

theorem plain_gz {x : Name} (h : Plain x) : Plain (x ++ ".gz".toList) := by
  intro c hc
  rcases List.mem_append.mp hc with hc | hc
  · exact h c hc
  · exact (by decide : Plain ".gz".toList) c hc

theorem slash_notMem_gz {x : Name} (h : '/' ∉ x) : '/' ∉ x ++ ".gz".toList := by
  rw [List.mem_append, not_or]
  exact ⟨h, by decide⟩

/-- A name that a pattern of the pruning matches is admitted if it has no
slash. -/
theorem admitted_of_stem_prefix {log x : Name} (hl : log ∈ logs) (hx : stem log <+: x) (hs : '/' ∉ x) :
    Admitted x := by
  have hlen : 3 < (stem log).length := (by decide : ∀ log ∈ logs, 3 < (stem log).length) log hl
  have hx := hlen.trans_le hx.length_le
  refine ⟨?_, ?_, ?_, hs⟩ <;> rintro rfl <;> exact absurd hx (by decide)

/-! ### A directory of the scripts' own -/

section Tame

variable {α : Type}

/-- The names the scripts make. -/
inductive Made : Name → Prop
  | live {log : Name} (h : log ∈ logs) : Made log
  | compressed {log : Name} (h : log ∈ logs) : Made (log ++ ".gz".toList)
  | rotated {log : Name} (h : log ∈ logs) (now : ℕ) : Made (rotated log now)

theorem Made.plain {x : Name} (h : Made x) : Plain x := by
  cases h with
  | live h => exact plain_of_mem_logs _ h
  | compressed h => exact plain_gz (plain_of_mem_logs _ h)
  | rotated h now => exact plain_rotated h now

theorem Made.slash_notMem {x : Name} (h : Made x) : '/' ∉ x := by
  cases h with
  | live h => exact slash_notMem_of_mem_logs _ h
  | compressed h => exact slash_notMem_gz (slash_notMem_of_mem_logs _ h)
  | rotated h now => exact slash_notMem_rotated h now

theorem not_log_suffix_gz (x : Name) : ¬ ".log".toList <:+ x ++ ".gz".toList := by
  have h := Tree.hasSuffix_log_gzPath [x]
  simpa [Tree.hasSuffix, Tree.gzPath] using h

/-- Of these names only the logs themselves end in `.log`. -/
theorem Made.mem_logs {x : Name} (h : Made x) (hx : ".log".toList <:+ x) : x ∈ logs := by
  cases h with
  | live h => exact h
  | compressed h => exact absurd hx (not_log_suffix_gz _)
  | rotated h now => exact absurd hx (not_suffix_rotated ⟨'g', by decide, by decide⟩ _ now)

/-- The log directory holds only what the scripts make. -/
structure Tame (t : Tree Name α) : Prop where
  dir : t.isDir logDir = true
  file : ∀ x, t.isDir (x :: logDir) = false
  made : ∀ x f, t.file? (x :: logDir) = some f → Made x

namespace Tame

variable {t : Tree Name α}

theorem made_of_mem_names (h : Tame t) {x : Name} (hx : x ∈ t.names logDir) : Made x := by
  rw [Tree.mem_names, h.file x] at hx
  obtain ⟨f, hf⟩ := Option.isSome_iff_exists.mp (hx.resolve_right (by simp))
  exact h.made x f hf

theorem tidy (h : Tame t) (pre : Name) (keep : ℕ) : t.Tidy logDir pre keep := by
  have hplain : ∀ x ∈ t.glob logDir pre, Plain x :=
    fun x hx => (h.made_of_mem_names ((t.mem_glob logDir pre x).mp hx).1).plain
  exact ⟨fun x _ => h.file x, fun x hx => newline_notMem_of_plain (hplain x hx),
    fun x hx => hplain x (Tree.mem_glob_of_mem_overflow hx)⟩

end Tame

/-- An empty log directory. -/
structure Empty (t : Tree Name α) : Prop where
  dir : t.isDir logDir = true
  names : t.names logDir = []

theorem Empty.node {t : Tree Name α} (h : Empty t) (x : Name) : t.node? (x :: logDir) = none := by
  have hx : x ∉ t.names logDir := by simp [h.names]
  rw [Tree.mem_names, ← Tree.node?_isSome] at hx
  simpa using hx

theorem Empty.tame {t : Tree Name α} (h : Empty t) : Tame t :=
  ⟨h.dir, fun x => by simp [Tree.isDir, h.node x], fun x f hf => by simp [Tree.file?, h.node x] at hf⟩

/-- A tree with an empty log directory, and nothing else. -/
def freshTree (α : Type) : Tree Name α := (Tree.bare Name α).mkdirP 0 logDir

theorem empty_freshTree (α : Type) : Empty (freshTree α) := by
  refine ⟨Tree.isDir_mkdirP_self 0 logDir fun q _ => Tree.file?_bare q, ?_⟩
  refine List.eq_nil_iff_forall_not_mem.mpr fun x hx => ?_
  rw [Tree.mem_names, freshTree, Tree.file?_mkdirP, Tree.file?_bare] at hx
  rcases Tree.isDir_mkdirP 0 logDir (hx.resolve_left (by simp)) with h | h
  · exact absurd (Tree.isDir_bare h) (by simp)
  · exact absurd h.length_le (by simp)

/-- The same with ten renamed files of one family. -/
def tenTree : Tree Name Text :=
  (List.range 10).foldl (fun t n => t.write 0 ((stem statusLog ++ decimal n) :: logDir) ⟨[], n + 1⟩) (freshTree Text)

/-- A world in which no time passes and the programs print nothing. -/
def still : World := ⟨fun _ => 0, fun _ => []⟩

end Tame

/-! ### Where the files of the directory come from -/

section Effect

variable {α : Type} [Content α]

/-- A file that a command left in the log directory was there, or is a log
that was written to, or was compressed or renamed from another one. -/
theorem file?_of_effect {c : Cmd} (hc : Scripted c) {mo : Moment} {t : Tree Name α} {x : Name} {f : File α}
    (h : (effect c mo t).file? (x :: logDir) = some f) :
    t.file? (x :: logDir) = some f ∨ x ∈ logs ∨
      (∃ y, t.file? (y :: logDir) = some f ∧ ".log".toList <:+ y ∧ x = y ++ ".gz".toList) ∨
      ∃ log ∈ logs, c = .rotate log ∧ t.file? (log :: logDir) = some f ∧ x = rotated log mo.now := by
  have happend : ∀ {log : Name} {a : α}, log ∈ logs → (t.appendTo mo.now (log :: logDir) a).file? (x :: logDir) = some f →
      t.file? (x :: logDir) = some f ∨ x ∈ logs := by
    intro log a hlog h
    by_cases hx : x = log
    · exact Or.inr (hx ▸ hlog)
    · rw [Tree.file?_appendTo_ne _ _ _ _ (by simpa using hx)] at h
      exact Or.inl h
  cases c with
  | mkdir d =>
    simp only [effect, Tree.file?_mkdirP] at h
    exact Or.inl h
  | print y log => exact (happend hc h).imp id Or.inl
  | output log => exact (happend hc h).imp id Or.inl
  | findDelete dir suf days =>
    simp only [effect, Tree.file?_findDelete] at h
    exact Or.inl (Option.filter_eq_some_iff.mp h).1
  | findGzip dir log =>
    obtain ⟨-, rfl⟩ := hc
    by_cases hx : x = cleanLog
    · exact Or.inr (Or.inl (hx ▸ by decide))
    by_cases hw : t.writable (cleanLog :: logDir) = true
    · rw [effect, Tree.file?_findGzip_ne _ _ _ _ _ (by simpa using hx) hw] at h
      rcases Tree.file?_of_gzipLarge h with h | ⟨p, hp, hxp, hf⟩
      · exact Or.inl h
      · have hlog := Tree.hasSuffix_of_compresses hp
        cases p with
        | nil => cases hxp
        | cons y d =>
          obtain ⟨rfl, rfl⟩ := List.cons.inj hxp
          exact Or.inr (Or.inr (Or.inl ⟨y, hf, by simpa [Tree.hasSuffix] using hlog, rfl⟩))
    · rw [effect, Tree.findGzip, if_neg hw] at h
      exact Or.inl h
  | prune cwd pre keep => exact Or.inl ((Tree.shrinks_prune t mo.now cwd logDir pre keep).file _ _ h)
  | rotate log =>
    rcases Tree.file?_of_mvFile h with h | ⟨hq, hf⟩
    · exact Or.inl h
    · rw [Tree.mvTarget] at hq
      split at hq
      · -- into a directory of that name: not an entry of the log directory
        exact absurd (congrArg List.length hq) (by simp)
      · exact Or.inr (Or.inr (Or.inr ⟨log, hc, rfl, hf, (List.cons.inj hq).1⟩))

/-- No command makes a directory in the log directory. -/
theorem isDir_of_effect {c : Cmd} (hc : Scripted c) {mo : Moment} {t : Tree Name α} {x : Name}
    (h : (effect c mo t).isDir (x :: logDir) = true) : t.isDir (x :: logDir) = true := by
  cases c with
  | mkdir d =>
    obtain rfl : d = logDir := hc
    rcases Tree.isDir_mkdirP mo.now logDir h with h | h
    · exact h
    · exact absurd h.length_le (by simp)
  | print y log => simpa [effect] using h
  | output log => simpa [effect] using h
  | findDelete dir suf days => simpa [effect] using h
  | findGzip dir log => simpa [effect] using h
  | prune cwd pre keep => exact (Tree.shrinks_prune t mo.now cwd logDir pre keep).dir _ h
  | rotate log => simpa [effect] using h

/-- No name in the log directory has a slash, as in every file system. -/
def Slashless (t : Tree Name α) : Prop := ∀ x ∈ t.names logDir, '/' ∉ x

theorem Slashless.effect {t : Tree Name α} (h : Slashless t) {c : Cmd} (hc : Scripted c) (mo : Moment) :
    Slashless (effect c mo t) := by
  have hfile : ∀ {x f}, t.file? (x :: logDir) = some f → '/' ∉ x :=
    fun hf => h _ ((t.mem_names _ _).mpr (Or.inl (by simp [hf])))
  intro x hx
  rw [Tree.mem_names] at hx
  rcases hx with hx | hx
  · obtain ⟨f, hf⟩ := Option.isSome_iff_exists.mp hx
    rcases file?_of_effect hc hf with hf | hx | ⟨y, hy, -, rfl⟩ | ⟨log, hlog, -, -, rfl⟩
    · exact hfile hf
    · exact slash_notMem_of_mem_logs x hx
    · exact slash_notMem_gz (hfile hy)
    · exact slash_notMem_rotated hlog mo.now
  · exact h x ((t.mem_names _ _).mpr (Or.inr (isDir_of_effect hc hx)))

/-- The pruning of tidy names unlinks what is past the ten newest. -/
theorem effect_prune {t : Tree Name α} {cwd : Path} {pre : Name} {keep : ℕ} (hc : Scripted (.prune cwd pre keep))
    (ht : t.Tidy logDir pre keep) (hs : Slashless t) (mo : Moment) :
    effect (.prune cwd pre keep) mo t = t.removeAll mo.now ((t.overflow logDir pre keep).map (· :: logDir)) := by
  obtain ⟨hpre, rfl⟩ := hc
  obtain ⟨log, hlog, rfl⟩ := List.mem_map.mp hpre
  refine Tree.prune_eq_removeAll ht (by decide) (by decide) (fun x hx => ?_) mo.now cwd
  rw [Tree.mem_glob] at hx
  exact admitted_of_stem_prefix (List.mem_append_left _ hlog) hx.2 (hs x hx.1)

namespace Tame

variable {t : Tree Name α}

theorem effect_prune (h : Tame t) {cwd : Path} {pre : Name} {keep : ℕ} (hc : Scripted (.prune cwd pre keep))
    (mo : Moment) :
    effect (.prune cwd pre keep) mo t = t.removeAll mo.now ((t.overflow logDir pre keep).map (· :: logDir)) :=
  Croner.effect_prune hc (h.tidy pre keep) (fun _ hx => (h.made_of_mem_names hx).slash_notMem) mo

/-- **The directory stays the scripts' own.** -/
theorem effect (h : Tame t) {c : Cmd} (hc : Scripted c) (mo : Moment) : Tame (effect c mo t) := by
  refine ⟨?_, fun x => ?_, fun x f hf => ?_⟩
  · cases c with
    | mkdir d => exact Tree.isDir_mkdirP_of_isDir mo.now d h.dir
    | print y log => simpa [Croner.effect] using h.dir
    | output log => simpa [Croner.effect] using h.dir
    | findDelete dir suf days => simpa [Croner.effect] using h.dir
    | findGzip dir log => simpa [Croner.effect] using h.dir
    | prune cwd pre keep => simpa [h.effect_prune hc mo] using h.dir
    | rotate log => simpa [Croner.effect] using h.dir
  · rw [Bool.eq_false_iff]
    intro hd
    exact absurd (isDir_of_effect hc hd) (by simp [h.file x])
  · rcases file?_of_effect hc hf with hf | hx | ⟨y, hy, hsuf, rfl⟩ | ⟨log, hlog, -, -, rfl⟩
    · exact h.made x f hf
    · exact .live hx
    · exact .compressed ((h.made y f hy).mem_logs hsuf)
    · exact .rotated hlog mo.now

end Tame

end Effect

end Croner
end OpsScripts
