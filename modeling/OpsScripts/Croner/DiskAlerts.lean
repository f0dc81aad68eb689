/-
# The disk alerts of `check_sys.sh`

```
df -h | grep -v "tmpfs" | awk '{print $5, $6}' | while read usage mount; do
```

`df` prints a table, and the loop reads a percentage and a mount path back
from its text. A file system is `Legible` if that works for it: a full one is
not taken for a tmpfs, and the fifth and sixth word of its line, read by
`read`, are its percentage and its path; another one is hidden, or read as
something that is not over the threshold.

Blanks in a source or a path shift the columns or cut the path, a backslash
is taken away or joins two lines, and a path that holds the word `tmpfs` is
hidden with its line.

Key definitions: `Mount`, `dfText`, `diskAlerts`, `dueAlerts`, `Mount.Legible`.
Key theorems: `diskAlerts_exact`, `Mount.legible_of_plain`.
-/
import OpsScripts.Calendar
import OpsScripts.Pattern
import OpsScripts.Read

namespace OpsScripts
namespace Croner

/-! ### What `df -h` prints -/

/-- The types that `df` shows in its first column. -/
inductive FsType
  | tmpfs
  | devtmpfs
  | other
  deriving DecidableEq

/-- A character of the size columns. -/
def isFigureChar (c : Char) : Bool := c.isDigit || c = '.' || c = '-' || "KMGTPEZYRQ".toList.contains c

/-- A size as `df -h` prints it: `20G`, `1.5T`, `0` or `-`. -/
structure Figure where
  text : Text
  ne : text ≠ []
  chars : text.all isFigureChar = true

/-- A mounted file system. `gap` is how many blanks more than one stand
between two columns of its line. -/
structure Mount where
  source : Text
  kind : FsType
  size : Figure
  used : Figure
  avail : Figure
  percent : Option ℕ
  path : Text
  gap : Fin 5 → ℕ
  source_line : '\n' ∉ source
  path_line : '\n' ∉ path

namespace Mount

/-- The first column. -/
def sourceText (m : Mount) : Text :=
  match m.kind with
  | .tmpfs => "tmpfs".toList
  | .devtmpfs => "devtmpfs".toList
  | .other => m.source

/-- The fifth column. -/
def percentText (m : Mount) : Text :=
  match m.percent with
  | some n => decimal n ++ ['%']
  | none => ['-']

/-- The line of a file system. -/
def dfLine (m : Mount) : Text :=
  m.sourceText ++ blanks (m.gap 0) ++ (m.size.text ++ blanks (m.gap 1) ++ (m.used.text ++ blanks (m.gap 2) ++
    (m.avail.text ++ blanks (m.gap 3) ++ (m.percentText ++ blanks (m.gap 4) ++ m.path))))

end Mount

/-- The first line of the table. -/
def dfHeader : Text := "Filesystem      Size  Used Avail Use% Mounted on".toList

/-- The output of `df -h`. -/
def dfText (ms : List Mount) : Text := unlines (dfHeader :: ms.map Mount.dfLine)

/-! ### The pipeline -/

/-- `grep -v "tmpfs"` drops the line. -/
def namesTmpfs (l : Text) : Bool := [Pattern.literal "tmpfs".toList].any (·.occurs l)

/-- `awk '{print $5, $6}'` on a line. -/
def awkUsageMount (l : Text) : Text := (words l).getD 4 [] ++ ' ' :: (words l).getD 5 []

/-- `${usage%\%}`. -/
def stripPercent (usage : Text) : Text := if usage.getLast? = some '%' then usage.dropLast else usage

/-- `DISK_THRESHOLD`. -/
def diskThreshold : ℕ := 85

/-- `[ "$usage_percent" -gt "$DISK_THRESHOLD" ]`; what is no number is an error,
and the test fails. -/
def exceedsThreshold (usage : Text) : Bool :=
  (legalNumber (stripPercent usage)).any fun n => decide ((diskThreshold : ℤ) < n)

/-- The `usage` and the `mount` of each turn of the loop that writes an alert. -/
def diskAlerts (df : Text) : List (Text × Text) :=
  (readAll (unlines ((lines (grepV [Pattern.literal "tmpfs".toList] df)).map awkUsageMount))).filter
    fun r => exceedsThreshold r.1

/-- The line that is appended to `system_alerts.log`. -/
def diskAlertLine (currentTime : Text) (r : Text × Text) : Text :=
  "[".toList ++ currentTime ++ "] 警告: 磁盘 ".toList ++ r.2 ++ " 使用率 (".toList ++ r.1 ++
    ") 超过阈值 (".toList ++ decimal diskThreshold ++ "%)".toList

/-! ### What is due -/

/-- The file system is no tmpfs and its use is over the threshold. -/
def Mount.full (m : Mount) : Bool := decide (m.kind = .other) && m.percent.any (diskThreshold < ·)

/-- The alerts that are due: one for each full file system, with its
percentage and its path. -/
def dueAlerts (ms : List Mount) : List (Text × Text) :=
  (ms.filter Mount.full).map fun m => (m.percentText, m.path)

/-- What the loop reads from the line of a file system, if the line is not
joined to the next one. -/
def Mount.reading (m : Mount) : Option (Text × Text) := readLine (awkUsageMount m.dfLine)

/-- The table says of the file system what the loop has to know. -/
def Mount.Legible (m : Mount) : Prop :=
  if m.full then
    namesTmpfs m.dfLine = false ∧ m.reading = some (m.percentText, m.path) ∧
      exceedsThreshold m.percentText = true
  else namesTmpfs m.dfLine = true ∨ ∃ r, m.reading = some r ∧ exceedsThreshold r.1 = false

/-! ### The lines of the table -/

theorem newline_notMem_blanks (n : ℕ) : '\n' ∉ blanks n := fun h => absurd (mem_blanks h) (by decide)

theorem newline_notMem_figure (f : Figure) : '\n' ∉ f.text := fun h => by
  have := List.all_eq_true.mp f.chars _ h
  revert this
  decide

theorem newline_notMem_percentText (m : Mount) : '\n' ∉ m.percentText := by
  unfold Mount.percentText
  split
  · rw [List.mem_append, not_or]
    refine ⟨fun h => ?_, by decide⟩
    have := Nat.isDigit_of_mem_toDigits (by norm_num) (by norm_num) h
    revert this
    decide
  · decide

theorem newline_notMem_dfLine (m : Mount) : '\n' ∉ m.dfLine := by
  have hs : '\n' ∉ m.sourceText := by
    unfold Mount.sourceText
    split
    · decide
    · decide
    · exact m.source_line
  simp only [Mount.dfLine, List.mem_append, not_or]
  exact ⟨⟨hs, newline_notMem_blanks _⟩, ⟨newline_notMem_figure _, newline_notMem_blanks _⟩,
    ⟨newline_notMem_figure _, newline_notMem_blanks _⟩,
    ⟨newline_notMem_figure _, newline_notMem_blanks _⟩,
    ⟨newline_notMem_percentText m, newline_notMem_blanks _⟩, m.path_line⟩

/-- A field of `awk` holds characters of its line that are no blanks. -/
theorem mem_of_mem_field {l : Text} {k : ℕ} {c : Char} (hc : c ∈ (words l).getD k []) :
    c ∈ l ∧ isBlank c = false := by
  rcases Nat.lt_or_ge k (words l).length with hk | hk
  · rw [List.getD_eq_getElem _ _ hk] at hc
    exact mem_of_mem_words (List.getElem_mem hk) hc
  · rw [List.getD_eq_default _ _ hk] at hc
    cases hc

theorem newline_notMem_awkUsageMount {l : Text} (h : '\n' ∉ l) : '\n' ∉ awkUsageMount l := by
  rw [awkUsageMount, List.mem_append, List.mem_cons, not_or, not_or]
  exact ⟨fun hc => h (mem_of_mem_field hc).1, by decide, fun hc => h (mem_of_mem_field hc).1⟩

/-- The two fields of the file systems that `grep` lets through. -/
def shownFields (ms : List Mount) : List Text :=
  (ms.filter fun m => !namesTmpfs m.dfLine).map fun m => awkUsageMount m.dfLine

theorem newline_notMem_shownFields {ms : List Mount} : ∀ l ∈ shownFields ms, '\n' ∉ l := by
  intro l hl
  obtain ⟨m, -, rfl⟩ := List.mem_map.mp hl
  exact newline_notMem_awkUsageMount (newline_notMem_dfLine m)

/-- The header gives no alert, and the rest of the table is what `grep` and
`awk` leave of it. -/
theorem diskAlerts_dfText (ms : List Mount) :
    diskAlerts (dfText ms) = (readAll (unlines (shownFields ms))).filter fun r => exceedsThreshold r.1 := by
  have hlines : ∀ l ∈ dfHeader :: ms.map Mount.dfLine, '\n' ∉ l := by
    intro l hl
    rcases List.mem_cons.mp hl with rfl | hl
    · decide
    · obtain ⟨m, -, rfl⟩ := List.mem_map.mp hl
      exact newline_notMem_dfLine m
  have hhead : [Pattern.literal "tmpfs".toList].any (·.occurs dfHeader) = false := by decide
  have hfields : (lines (grepV [Pattern.literal "tmpfs".toList] (dfText ms))).map awkUsageMount =
      "Use% Mounted".toList :: shownFields ms := by
    rw [dfText, grepV_unlines _ _ hlines, List.filter_cons_of_pos (by rw [hhead]; rfl), lines_unlines]
    · rw [List.map_cons, List.filter_map, List.map_map]
      congr 1
    · intro l hl
      rcases List.mem_cons.mp hl with rfl | hl
      · exact hlines _ List.mem_cons_self
      · exact hlines _ (List.mem_cons_of_mem _ (List.mem_of_mem_filter hl))
  rw [diskAlerts, hfields, unlines_cons, readAll, readAllFrom_line _ _ _ (by decide),
    if_neg (by decide), List.filter_cons_of_neg (by decide)]
  rfl

/-- An alert is made of characters of the table, and blanks. -/
theorem of_mem_diskAlerts {df : Text} {r : Text × Text} (hr : r ∈ diskAlerts df) {c : Char} (hc : c ∈ r.1 ∨ c ∈ r.2) :
    c ≠ '\n' ∧ (c = ' ' ∨ c ∈ df) := by
  obtain ⟨hc, hn⟩ := of_mem_readAll (List.mem_of_mem_filter hr) hc
  refine ⟨hn, ?_⟩
  simp only [unlines, List.mem_flatMap, List.mem_map, List.mem_append, List.mem_singleton] at hc
  obtain ⟨_, ⟨l, hl, rfl⟩, hc | hc⟩ := hc
  · have hl : l ∈ lines df := by
      rw [grepV, lines_unlines _ fun l hl => newline_notMem_of_mem_lines df l (List.mem_of_mem_filter hl)] at hl
      exact List.mem_of_mem_filter hl
    rw [awkUsageMount, List.mem_append, List.mem_cons] at hc
    rcases hc with hc | hc | hc
    · exact Or.inr (mem_of_mem_lines hl (mem_of_mem_field hc).1)
    · exact Or.inl hc
    · exact Or.inr (mem_of_mem_lines hl (mem_of_mem_field hc).1)
  · exact absurd hc hn

/-! ### Legible tables -/

theorem reading_of_legible {m : Mount} (h : m.Legible) (hs : namesTmpfs m.dfLine = false) :
    ∃ r, m.reading = some r ∧
      (exceedsThreshold r.1 = true ↔ m.full = true) ∧ (m.full = true → r = (m.percentText, m.path)) := by
  unfold Mount.Legible at h
  split at h
  · rename_i hf
    obtain ⟨-, hr, he⟩ := h
    exact ⟨_, hr, by simp [he, hf], fun _ => rfl⟩
  · rename_i hf
    rcases h with h | ⟨r, hr, he⟩
    · rw [hs] at h; cases h
    · exact ⟨r, hr, by simp [he, hf], fun h => absurd h hf⟩

theorem diskAlerts_of_legible : ∀ ms : List Mount, (∀ m ∈ ms, m.Legible) →
    diskAlerts (dfText ms) = dueAlerts ms := by
  intro ms h
  -- what is read, line by line, and that the alerts among it are the due ones
  have key : ∃ rs : List (Text × Text), (shownFields ms).map readLine = rs.map some ∧
      rs.filter (fun r => exceedsThreshold r.1) = dueAlerts ms := by
    induction ms with
    | nil => exact ⟨[], rfl, rfl⟩
    | cons m ms ih =>
      obtain ⟨rs, hrs, hdue⟩ := ih fun x hx => h x (List.mem_cons_of_mem _ hx)
      have hm := h m List.mem_cons_self
      by_cases hs : namesTmpfs m.dfLine = true
      · have hf : m.full = false := by
          unfold Mount.Legible at hm
          split at hm
          · rw [hs] at hm; cases hm.1
          · simpa using ‹¬ m.full = true›
        refine ⟨rs, ?_, ?_⟩
        · rw [← hrs, shownFields, List.filter_cons_of_neg (by simp [hs])]
          rfl
        · rw [hdue, dueAlerts, dueAlerts, List.filter_cons_of_neg (by simp [hf])]
      · obtain ⟨r, hr, he, hfull⟩ := reading_of_legible hm (by simpa using hs)
        refine ⟨r :: rs, ?_, ?_⟩
        · rw [shownFields, List.filter_cons_of_pos (by simp [hs]), List.map_cons, List.map_cons,
            List.map_cons, ← hrs]
          exact congrArg (· :: _) hr
        · by_cases hf : m.full = true
          · rw [List.filter_cons_of_pos (by exact he.mpr hf), hdue, dueAlerts, dueAlerts,
              List.filter_cons_of_pos hf, List.map_cons, hfull hf]
          · rw [List.filter_cons_of_neg (by exact fun hx => hf (he.mp hx)), hdue, dueAlerts, dueAlerts,
              List.filter_cons_of_neg hf]
  obtain ⟨rs, hrs, hdue⟩ := key
  rw [diskAlerts_dfText, readAll_unlines _ rs newline_notMem_shownFields hrs, hdue]

/-! ### Ordinary names -/

theorem isBlank_of_figure (f : Figure) : ∀ c ∈ f.text, isBlank c = false := by
  intro c hc
  have hfig := List.all_eq_true.mp f.chars c hc
  have h1 : c ≠ ' ' := by rintro rfl; revert hfig; decide
  have h2 : c ≠ '\t' := by rintro rfl; revert hfig; decide
  simp [isBlank, h1, h2]

/-- A percentage is digits and a percent sign, or a dash. -/
theorem mem_percentText {m : Mount} {c : Char} (h : c ∈ m.percentText) :
    c.isDigit = true ∨ c = '%' ∨ c = '-' := by
  unfold Mount.percentText at h
  split at h
  · rcases List.mem_append.mp h with h | h
    · exact Or.inl (Nat.isDigit_of_mem_toDigits (by norm_num) (by norm_num) h)
    · exact Or.inr (Or.inl (by simpa using h))
  · exact Or.inr (Or.inr (by simpa using h))

theorem isBlank_of_percentText {m : Mount} : ∀ c ∈ m.percentText, isBlank c = false := by
  intro c hc
  have h1 : c ≠ ' ' := by rintro rfl; have := mem_percentText hc; revert this; decide
  have h2 : c ≠ '\t' := by rintro rfl; have := mem_percentText hc; revert this; decide
  simp [isBlank, h1, h2]

theorem percentText_ne_nil (m : Mount) : m.percentText ≠ [] := by
  unfold Mount.percentText
  split <;> simp

/-- The test on a printed percentage is the comparison of the numbers. -/
theorem exceedsThreshold_decimal {n : ℕ} (h : n < 2 ^ 63) :
    exceedsThreshold (decimal n ++ ['%']) = decide (diskThreshold < n) := by
  have hs : stripPercent (decimal n ++ ['%']) = decimal n := by simp [stripPercent]
  rw [exceedsThreshold, hs, legalNumber_decimal n h]
  simp

theorem namesTmpfs_eq_false {l : Text} : namesTmpfs l = false ↔ ¬ "tmpfs".toList <:+: l := by
  rw [← Pattern.occurs_literal, Bool.not_eq_true]
  simp [namesTmpfs]

/-- The filtered word stands in one column or not at all. -/
theorem tmpfs_infix_blanks (n : ℕ) (a b : Text) :
    "tmpfs".toList <:+: a ++ blanks n ++ b ↔ "tmpfs".toList <:+: a ∨ "tmpfs".toList <:+: b :=
  infix_blanks (by decide) (by decide) n a b

theorem not_tmpfs_infix {w : Text} (h : 't' ∉ w) : ¬ "tmpfs".toList <:+: w :=
  fun hi => h (hi.subset (by decide))

/-- `grep -v tmpfs` looks at the source and the path only. -/
theorem namesTmpfs_dfLine {m : Mount} (hs : namesTmpfs m.sourceText = false)
    (hp : namesTmpfs m.path = false) : namesTmpfs m.dfLine = false := by
  rw [namesTmpfs_eq_false] at *
  have hfig : ∀ f : Figure, ¬ "tmpfs".toList <:+: f.text := fun f => not_tmpfs_infix fun h => by
    have := List.all_eq_true.mp f.chars _ h
    revert this
    decide
  have hpct : ¬ "tmpfs".toList <:+: m.percentText := not_tmpfs_infix fun h => by
    have := mem_percentText h
    revert this
    decide
  rw [Mount.dfLine, tmpfs_infix_blanks, tmpfs_infix_blanks, tmpfs_infix_blanks, tmpfs_infix_blanks,
    tmpfs_infix_blanks]
  simp only [hs, hp, hfig, hpct, or_self, not_false_iff]

/-- **Ordinary file systems are legible**: a source and a path without
blanks, a path without backslashes, and neither of them with the filtered
word. -/
theorem Mount.legible_of_plain {m : Mount} (hk : m.kind = .other)
    (hsource : m.source ≠ [] ∧ ∀ c ∈ m.source, isBlank c = false)
    (hpath : m.path ≠ [] ∧ ∀ c ∈ m.path, isBlank c = false) (hb : '\\' ∉ m.path)
    (htmpfs : namesTmpfs m.source = false ∧ namesTmpfs m.path = false)
    (hpct : ∀ n ∈ m.percent, n < 2 ^ 63) : m.Legible := by
  have hst : m.sourceText = m.source := by rw [Mount.sourceText, hk]
  have hshown : namesTmpfs m.dfLine = false := namesTmpfs_dfLine (by rw [hst]; exact htmpfs.1) htmpfs.2
  have hwords : words m.dfLine =
      [m.source, m.size.text, m.used.text, m.avail.text, m.percentText, m.path] := by
    rw [Mount.dfLine, hst, words_blanks _ _ _ hsource.2 hsource.1,
      words_blanks _ _ _ (isBlank_of_figure _) m.size.ne,
      words_blanks _ _ _ (isBlank_of_figure _) m.used.ne,
      words_blanks _ _ _ (isBlank_of_figure _) m.avail.ne,
      words_blanks _ _ _ isBlank_of_percentText (percentText_ne_nil m),
      words_eq_self _ hpath.2 hpath.1]
  have hpb : '\\' ∉ m.percentText := fun h => by
    have := mem_percentText h
    revert this
    decide
  have hread : m.reading = some (m.percentText, m.path) := by
    rw [Mount.reading, awkUsageMount, hwords]
    exact readLine_words isBlank_of_percentText hpath.2 (percentText_ne_nil m) ⟨hpb, hb⟩
  have hexc : exceedsThreshold m.percentText = m.percent.any (diskThreshold < ·) := by
    unfold Mount.percentText
    cases hn : m.percent with
    | none => decide
    | some n => exact exceedsThreshold_decimal (hpct n (by simp [hn]))
  have hfull : m.full = m.percent.any (diskThreshold < ·) := by simp [Mount.full, hk]
  unfold Mount.Legible
  split
  · rename_i hf
    exact ⟨hshown, hread, by rw [hexc, ← hfull, hf]⟩
  · rename_i hf
    exact Or.inr ⟨_, hread, by rw [hexc, ← hfull]; simpa using hf⟩

/-- A tmpfs is hidden, wherever it is mounted. -/
theorem Mount.legible_of_tmpfs {m : Mount} (hk : m.kind ≠ .other) : m.Legible := by
  have hs : "tmpfs".toList <:+: m.sourceText := by
    unfold Mount.sourceText
    split
    · exact List.infix_refl _
    · exact ⟨"dev".toList, [], rfl⟩
    · exact absurd ‹_› hk
  have hfull : m.full = false := by simp [Mount.full, hk]
  unfold Mount.Legible
  rw [if_neg (by simp [hfull])]
  left
  by_contra h
  rw [Bool.not_eq_true, namesTmpfs_eq_false] at h
  exact h (by rw [Mount.dfLine, tmpfs_infix_blanks]; exact Or.inl hs)

/-! ### Illegible tables -/

/-- One file system alone: the alert is what its own line reads as. -/
theorem diskAlerts_single {m : Mount} (hs : namesTmpfs m.dfLine = false) :
    diskAlerts (dfText [m]) = m.reading.toList.filter fun r => exceedsThreshold r.1 := by
  have hn := newline_notMem_awkUsageMount (newline_notMem_dfLine m)
  have hshown : shownFields [m] = [awkUsageMount m.dfLine] := by simp [shownFields, hs]
  rw [diskAlerts_dfText, hshown]
  congr 1
  unfold Mount.reading readLine
  split
  · rename_i hd
    exact readAll_dangling_last hn hd
  · rename_i hd
    exact readAll_unlines _ [_] (by simpa using hn) (by simp [readLine, hd])

theorem diskAlerts_hidden {m : Mount} (hs : namesTmpfs m.dfLine = true) :
    diskAlerts (dfText [m]) = [] := by
  rw [diskAlerts_dfText, shownFields, List.filter_cons_of_neg (by simp [hs])]
  rfl

/-- A full file system whose alert is right when it is alone is legible. -/
theorem legible_of_full {m : Mount} (hf : m.full = true)
    (h : diskAlerts (dfText [m]) = dueAlerts [m]) : m.Legible := by
  have hdue : dueAlerts [m] = [(m.percentText, m.path)] := by simp [dueAlerts, hf]
  rw [hdue] at h
  unfold Mount.Legible
  rw [if_pos hf]
  by_cases hs : namesTmpfs m.dfLine = true
  · rw [diskAlerts_hidden hs] at h
    cases h
  · rw [Bool.not_eq_true] at hs
    rw [diskAlerts_single hs] at h
    have hmem : (m.percentText, m.path) ∈ m.reading.toList.filter fun r => exceedsThreshold r.1 := by
      rw [h]; exact List.mem_cons_self
    obtain ⟨hr, he⟩ := List.mem_filter.mp hmem
    exact ⟨hs, by simpa using hr, he⟩

/-- The loop would take something from a line that is joined to the next one. -/
theorem solid_pos_of_joining {l : Text} (h : (escapes (awkUsageMount l)).2 = true) :
    0 < solid (escapes (awkUsageMount l)).1 := by
  have hlast := getLast?_of_joining _ h
  have hne : (words l).getD 5 [] ≠ [] := by
    intro he
    rw [awkUsageMount, he, List.getLast?_concat] at hlast
    cases hlast
  have hlen : 5 < (words l).length := by
    by_contra hlt
    exact hne (List.getD_eq_default _ _ (by omega))
  have hmem : (words l).getD 4 [] ∈ words l := by
    rw [List.getD_eq_getElem _ _ (by omega)]
    exact List.getElem_mem _
  obtain ⟨c, t, hct⟩ := List.exists_cons_of_ne_nil (ne_nil_of_mem_words hmem)
  have hc : isBlank c = false := (mem_of_mem_words hmem (by rw [hct]; exact List.mem_cons_self)).2
  rw [awkUsageMount, hct, List.cons_append]
  cases t with
  | nil => exact solid_escapes_pos _ hc
  | cons d t => exact solid_escapes_pos _ hc

/-- Two fields of `awk` have one separator between them at most. -/
theorem countP_isSep_awkUsageMount (l : Text) :
    (escapes (awkUsageMount l)).1.countP Read.isSep ≤ 1 := by
  have hfield : ∀ k, ((words l).getD k []).countP isBlank = 0 := fun k =>
    List.countP_eq_zero.mpr fun c hc => by simp [(mem_of_mem_field hc).2]
  refine (countP_isSep_escapes _).trans ?_
  rw [awkUsageMount, List.countP_append, List.countP_cons, hfield, hfield]
  decide

/-- A line that is joined to that of a full file system spoils its alert. -/
theorem not_joining {m g : Mount} (hm : m.full = false) (hs : namesTmpfs m.dfLine = false)
    (hg : g.full = true) (hgl : g.Legible) (h : diskAlerts (dfText [m, g]) = dueAlerts [m, g]) :
    (escapes (awkUsageMount m.dfLine)).2 = false := by
  by_contra hd
  rw [Bool.not_eq_false] at hd
  unfold Mount.Legible at hgl
  rw [if_pos hg] at hgl
  obtain ⟨hgs, hgr, -⟩ := hgl
  have hdue : dueAlerts [m, g] = [(g.percentText, g.path)] := by simp [dueAlerts, hm, hg]
  have hshown : shownFields [m, g] = [awkUsageMount m.dfLine, awkUsageMount g.dfLine] := by
    simp [shownFields, hs, hgs]
  unfold Mount.reading readLine at hgr
  split at hgr
  · cases hgr
  · rename_i hge
    rw [Option.some.injEq] at hgr
    rw [diskAlerts_dfText, hshown, readAll_dangling
      (newline_notMem_awkUsageMount (newline_notMem_dfLine m))
      (newline_notMem_awkUsageMount (newline_notMem_dfLine g)) hd (by simpa using hge), hdue] at h
    -- both lines come through, but the alert has room for the second one only
    have heq : readFields ((escapes (awkUsageMount m.dfLine)).1 ++ (escapes (awkUsageMount g.dfLine)).1) =
        (g.percentText, g.path) := by
      have hmem := List.mem_filter.mp (h ▸ List.mem_cons_self :
        (g.percentText, g.path) ∈ List.filter (fun r => exceedsThreshold r.1) _)
      exact (List.mem_singleton.mp hmem.1).symm
    have h1 := solid_le_readFields
      ((escapes (awkUsageMount m.dfLine)).1 ++ (escapes (awkUsageMount g.dfLine)).1)
    have h2 := readFields_le_solid _ (countP_isSep_awkUsageMount g.dfLine)
    rw [heq, solid_append] at h1
    rw [hgr] at h2
    have := solid_pos_of_joining hd
    omega

/-- A full disk with the root of the tree on it. -/
def rootDisk : Mount where
  source := "/dev/sda1".toList
  kind := .other
  size := ⟨"20G".toList, by decide, by decide⟩
  used := ⟨"18G".toList, by decide, by decide⟩
  avail := ⟨"2.0G".toList, by decide, by decide⟩
  percent := some 90
  path := "/".toList
  gap := fun _ => 1
  source_line := by decide
  path_line := by decide

/-- The same disk, mounted under a name with a blank. -/
def photoDisk : Mount where
  source := "/dev/sdb1".toList
  kind := .other
  size := ⟨"20G".toList, by decide, by decide⟩
  used := ⟨"18G".toList, by decide, by decide⟩
  avail := ⟨"2.0G".toList, by decide, by decide⟩
  percent := some 90
  path := "/mnt/my photos".toList
  gap := fun _ => 1
  source_line := by decide
  path_line := by decide

theorem rootDisk_legible : rootDisk.Legible := by
  refine Mount.legible_of_plain (m := rootDisk) rfl ⟨by decide, ?_⟩ ⟨by decide, ?_⟩ (by decide)
    ⟨by decide, by decide⟩ ?_
  · exact List.forall_iff_forall_mem.mp (by decide)
  · exact List.forall_iff_forall_mem.mp (by decide)
  · intro n hn
    obtain rfl : (90 : ℕ) = n := Option.some.inj hn
    norm_num

end Croner
end OpsScripts
