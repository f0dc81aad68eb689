/-
# The event that `upload_events.sh` posts

The script splices what it has collected into a JSON text with a
here-document: strings between quotes as they are, figures bare, and only the
alerts through `jq`. The event can be decoded and says what was collected if
and only if (`Collected.Clean`)

* the host name, the address, the uptime and the load are plain: no quote,
  backslash or control character;
* there is a figure for the CPU, the memory and the disk;
* the last ten lines of `system_alerts.log` hold no NUL, which the shell drops,
  and are not one option of `echo`, such as `-n`.

Key definitions: `Collected`, `jsonData`, `Faithful`, `Collected.Clean`.
Key theorem: `jsonData_faithful_iff`.
-/
import OpsScripts.Inet
import OpsScripts.Json

namespace OpsScripts
namespace Croner

/-! ### What is collected -/

/-- The value of `$(command)` for what the command prints: without NULs, and
without the newlines at its end. -/
def capture (t : Text) : Text := chomp (t.filter (· ≠ '\x00'))

/-- A value that such a substitution can have. -/
structure Captured where
  text : Text
  nul : '\x00' ∉ text
  newline : text.getLast? ≠ some '\n'

/-- A figure: a decimal number, a dash, or nothing. -/
inductive Reading
  | number (n : ℕ) (frac : List (Fin 10))
  | dash
  | empty

def Reading.text : Reading → Text
  | number n [] => decimal n
  | number n (d :: ds) => decimal n ++ '.' :: (d :: ds).map fun d : Fin 10 => Nat.digitChar d.val
  | dash => ['-']
  | empty => []

def Reading.isNumber : Reading → Prop
  | number _ _ => True
  | _ => False

/-- What the collecting commands of `upload_events.sh` have yielded.
`alertLog` is the contents of `system_alerts.log`, if there is such a file. -/
structure Collected where
  timestamp : ℕ
  host : Captured
  ip : Captured
  uptime : Captured
  cpu : Reading
  mem : Reading
  disk : Reading
  load : Captured
  alertLog : Option Text

/-- `ALERTS`. -/
def alertsOf (log : Option Text) : Text :=
  match log with
  | some t => capture (tailLines 10 t)
  | none => "No alerts found".toList

/-- A word that `echo` takes for options. -/
def isEchoOption : Text → Bool
  | '-' :: c :: t => (c :: t).all fun c => c = 'n' || c = 'e' || c = 'E'
  | _ => false

/-- `echo "$w"`. -/
def echo (w : Text) : Text :=
  if isEchoOption w then if 'n' ∈ w then [] else ['\n']
  else w ++ ['\n']

/-- `jq -R -s '.'`: it prints a JSON string literal that decodes to its whole
input. -/
structure Jq where
  literal : Text → Text
  decodes : ∀ x, ∃ b, literal x = '"' :: b ∧ parseString b = some (x, [])

/-! ### The here-document -/

/-- The name of a member, after some white space. -/
def member (indent name rest : Text) : Text := indent ++ '"' :: (name ++ '"' :: ':' :: ' ' :: rest)

/-- The members of `metrics`, and what follows them. -/
def metricsMembers (c : Collected) (rest : Text) : Text :=
  member "\n    ".toList "uptime".toList ('"' :: (c.uptime.text ++ '"' :: (',' ::
  member "\n    ".toList "cpu_usage".toList (c.cpu.text ++ ',' ::
  member "\n    ".toList "memory_usage".toList (c.mem.text ++ ',' ::
  member "\n    ".toList "disk_usage".toList (c.disk.text ++ ',' ::
  member "\n    ".toList "load_average".toList ('"' :: (c.load.text ++ '"' :: ("\n  \x7d,".toList ++ rest)))))))))

/-- The text between `EOF` and `EOF`, up to the value of `alerts`, which
`rest` begins with. -/
def document (c : Collected) (rest : Text) : Text :=
  '{' :: member "\n  ".toList "timestamp".toList (decimal c.timestamp ++ ',' ::
  member "\n  ".toList "host".toList ('"' :: (c.host.text ++ '"' :: (',' ::
  member "\n  ".toList "ip".toList ('"' :: (c.ip.text ++ '"' :: (',' ::
  member "\n  ".toList "metrics".toList ('{' :: metricsMembers c (member "\n  ".toList "alerts".toList rest)))))))))

/-- The whole of it, with the output of `jq` put in. -/
def hereDocument (c : Collected) (literal : Text) : Text := document c (literal ++ "\n\x7d\n".toList)

/-- `JSON_DATA`. -/
def jsonData (jq : Jq) (c : Collected) : Text :=
  capture (hereDocument c (capture (jq.literal (echo (alertsOf c.alertLog)) ++ ['\n'])))

/-! ### What is wanted -/

/-- The alerts as they should arrive. -/
def wantedAlerts (log : Option Text) : Text :=
  match log with
  | some t => chomp (tailLines 10 t) ++ ['\n']
  | none => "No alerts found\n".toList

/-- The figures that there are arrive. -/
def HasFigure (metrics : Json) (name : Text) (r : Reading) : Prop :=
  r.isNumber → metrics.field? name = some (.num r.text)

/-- The text is one JSON object, and it says what was collected. -/
def Faithful (c : Collected) (data : Text) : Prop :=
  ∃ ms metrics, Json.decode data = some (.obj ms) ∧
    Json.memberOf "timestamp".toList ms = some (.num (decimal c.timestamp)) ∧
    Json.memberOf "host".toList ms = some (.str c.host.text) ∧
    Json.memberOf "ip".toList ms = some (.str c.ip.text) ∧
    Json.memberOf "metrics".toList ms = some metrics ∧
    metrics.field? "uptime".toList = some (.str c.uptime.text) ∧
    metrics.field? "load_average".toList = some (.str c.load.text) ∧
    HasFigure metrics "cpu_usage".toList c.cpu ∧ HasFigure metrics "memory_usage".toList c.mem ∧
    HasFigure metrics "disk_usage".toList c.disk ∧
    Json.memberOf "alerts".toList ms = some (.str (wantedAlerts c.alertLog))

/-- The strings and the figures can be spliced into the text as they are. -/
structure Collected.Plain (c : Collected) : Prop where
  host : PlainJson c.host.text
  ip : PlainJson c.ip.text
  uptime : PlainJson c.uptime.text
  load : PlainJson c.load.text
  cpu : c.cpu.isNumber
  mem : c.mem.isNumber
  disk : c.disk.isNumber

/-- And the shell keeps the alerts. -/
structure Collected.Clean (c : Collected) : Prop extends c.Plain where
  nul : ∀ t, c.alertLog = some t → '\x00' ∉ tailLines 10 t
  option : ∀ t, c.alertLog = some t → isEchoOption (chomp (tailLines 10 t)) = false


/-! ### Figures -/

/-- A decimal number does not start with a zero, unless it is zero. -/
theorem decimal_head {n : ℕ} (h : (decimal n).head? = some '0') : n = 0 := by
  induction n using Nat.strongRecOn with
  | ind n ih =>
    rcases Nat.lt_or_ge n 10 with hn | hn
    · rw [decimal, Nat.toDigits_of_lt_base hn] at h
      interval_cases n <;> first | rfl | exact absurd h (by decide)
    · rw [decimal, Nat.toDigits_of_base_le (by norm_num) hn] at h
      have hne := decimal_ne_nil (n / 10)
      rw [List.head?_append_of_ne_nil _ hne] at h
      have := ih (n / 10) (by omega) h
      omega

theorem digits1_append {ds t : Text} (hd : ∀ c ∈ ds, c.isDigit = true) (hne : ds ≠ [])
    (ht : ∀ c, t.head? = some c → c.isDigit = false) : digits1 (ds ++ t) = some (ds, t) := by
  have htake : t.takeWhile Char.isDigit = [] := by
    cases t with
    | nil => rfl
    | cons c t => exact List.takeWhile_cons_of_neg (by simp [ht c rfl])
  have hdrop : t.dropWhile Char.isDigit = t := by
    cases t with
    | nil => rfl
    | cons c t => exact List.dropWhile_cons_of_neg (by simp [ht c rfl])
  unfold digits1
  rw [List.takeWhile_append_of_pos hd, List.dropWhile_append_of_pos hd, htake, hdrop, List.append_nil,
    if_neg hne]

theorem isDigit_decimal (n : ℕ) : ∀ c ∈ decimal n, c.isDigit = true :=
  fun _ hc => Nat.isDigit_of_mem_toDigits (by norm_num) (by norm_num) hc

theorem parseInt_decimal (n : ℕ) {t : Text} (ht : ∀ c, t.head? = some c → c.isDigit = false) :
    parseInt (decimal n ++ t) = some (decimal n, t) := by
  rw [parseInt, digits1_append (isDigit_decimal n) (decimal_ne_nil n) ht, Option.bind_some, if_neg]
  rintro ⟨h0, h1⟩
  rw [decimal_head h0] at h1
  exact absurd (show 1 < (decimal 0).length from h1) (by decide)

/-- A figure in front of a comma is a JSON number. -/
theorem parseNumber_reading {r : Reading} (h : r.isNumber) (t : Text) :
    parseNumber (r.text ++ ',' :: t) = some (r.text, ',' :: t) := by
  have hfirst : ∀ (n : ℕ) (u : Text), parseNumber (decimal n ++ u) = parseUnsigned (decimal n ++ u) := by
    intro n u
    obtain ⟨c, w, hw⟩ := List.exists_cons_of_ne_nil (decimal_ne_nil n)
    have hc : c ≠ '-' := by
      rintro rfl
      exact absurd (isDigit_decimal n '-' (by rw [hw]; exact List.mem_cons_self)) (by decide)
    rw [hw, List.cons_append, parseNumber]
    simpa using hc
  have hcomma : ∀ c, (',' :: t).head? = some c → c.isDigit = false := by
    intro c hc
    rw [← Option.some.inj hc]
    decide
  have hexp : parseExp (',' :: t) = some ([], ',' :: t) := rfl
  cases r with
  | number n frac =>
    cases frac with
    | nil =>
      have hfrac : parseFrac (',' :: t) = some ([], ',' :: t) := rfl
      rw [Reading.text, hfirst, parseUnsigned, parseInt_decimal n hcomma]
      simp only [Option.bind_some, hfrac, hexp, Option.map_some, List.append_nil]
    | cons d ds =>
      set w := (d :: ds).map fun d : Fin 10 => Nat.digitChar d.val with hw
      have hdig : ∀ c ∈ w, c.isDigit = true := by
        intro c hc
        obtain ⟨e, -, rfl⟩ := List.mem_map.mp hc
        exact isDigit_digitChar _ e.isLt
      have hdot : ∀ c, ('.' :: (w ++ ',' :: t)).head? = some c → c.isDigit = false := by
        intro c hc
        rw [← Option.some.inj hc]
        decide
      have hfrac : parseFrac ('.' :: (w ++ ',' :: t)) = some ('.' :: w, ',' :: t) := by
        rw [parseFrac, digits1_append hdig (by simp [hw]) hcomma]
        rfl
      rw [Reading.text, ← hw, List.append_assoc, List.cons_append, hfirst, parseUnsigned,
        parseInt_decimal n hdot]
      simp only [Option.bind_some, hfrac, hexp, Option.map_some, List.append_nil]
  | dash => exact h.elim
  | empty => exact h.elim

/-- A value that is a figure. -/
theorem parseValue_reading {r : Reading} (h : r.isNumber) (n : ℕ) (t : Text) :
    parseValue (n + 1) (' ' :: (r.text ++ ',' :: t)) = some (.num r.text, ',' :: t) := by
  obtain ⟨c, w, hw, hc⟩ : ∃ c w, r.text ++ ',' :: t = c :: w ∧ c.isDigit = true := by
    cases r with
    | number m frac =>
      obtain ⟨c, w, hw⟩ := List.exists_cons_of_ne_nil (decimal_ne_nil m)
      have hc := isDigit_decimal m c (by rw [hw]; exact List.mem_cons_self)
      cases frac with
      | nil => exact ⟨c, w ++ ',' :: t, by rw [Reading.text, hw]; rfl, hc⟩
      | cons d ds => exact ⟨c, _, by rw [Reading.text, hw]; rfl, hc⟩
    | dash => exact h.elim
    | empty => exact h.elim
  have hnum := parseNumber_reading h t
  have hne : ∀ d : Char, d.isDigit = false → c ≠ d := by
    rintro d hd rfl
    rw [hc] at hd
    cases hd
  have hskip : skipWs (' ' :: c :: w) = c :: w := by
    have hws : isWs c = false := by
      simp [isWs, hne ' ' (by decide), hne '\t' (by decide), hne '\n' (by decide), hne '\r' (by decide)]
    exact (List.dropWhile_cons_of_pos (by decide)).trans (List.dropWhile_cons_of_neg (by simp [hws]))
  rw [hw] at hnum ⊢
  rw [parseValue, hskip]
  split
  · rename_i h; exact absurd (List.cons.inj h).1 (hne _ (by decide))
  · rename_i h; exact absurd (List.cons.inj h).1 (hne _ (by decide))
  · rename_i h; exact absurd (List.cons.inj h).1 (hne _ (by decide))
  · rename_i h; exact absurd (List.cons.inj h).1 (hne _ (by decide))
  · rename_i h; exact absurd (List.cons.inj h).1 (hne _ (by decide))
  · rename_i h; exact absurd (List.cons.inj h).1 (hne _ (by decide))
  · rw [hnum]
    rfl

/-- Where there is no figure there is no value. -/
theorem parseValue_no_reading {r : Reading} (h : ¬ r.isNumber) (n : ℕ) (t : Text) :
    parseValue (n + 1) (' ' :: (r.text ++ ',' :: t)) = none := by
  cases r with
  | number m frac => exact absurd trivial h
  | dash => rfl
  | empty => rfl

/-! ### The text that is posted -/

theorem chomp_eq_of_getLast? {t : Text} (h : t.getLast? ≠ some '\n') : chomp t = t := by
  rw [chomp, List.rdropWhile_eq_self_iff]
  intro hne
  rw [List.getLast?_eq_some_getLast hne, ne_eq, Option.some.injEq] at h
  simpa using h

theorem filter_nul {t : Text} (h : '\x00' ∉ t) : t.filter (· ≠ '\x00') = t :=
  List.filter_eq_self.mpr fun c hc => by
    simpa using fun e : c = '\x00' => h (e ▸ hc)

/-- A text with a newline at its end loses it. -/
theorem capture_append_newline {t : Text} (hn : '\x00' ∉ t) (h : t.getLast? ≠ some '\n') :
    capture (t ++ ['\n']) = t := by
  rw [capture, filter_nul (by simp [hn]), chomp_append_newline, chomp_eq_of_getLast? h]

/-- A string literal: no control character, and a quote at its end. -/
theorem Jq.literal_spec (jq : Jq) (x : Text) :
    ∃ w, jq.literal x = '"' :: (w ++ ['"']) ∧ '\x00' ∉ w ∧ parseString (w ++ ['"']) = some (x, []) := by
  obtain ⟨b, hb, hp⟩ := jq.decodes x
  have hp' := hp
  simp only [parseString, Option.map_eq_some_iff, Prod.mk.injEq] at hp'
  obtain ⟨⟨ps, r⟩, hbody, -, hr⟩ := hp'
  obtain ⟨w, hw, hctrl, -, -⟩ := parseBody_spec _ _ _ hbody
  simp only at hr
  rw [hr] at hw
  subst hw
  exact ⟨w, hb, fun h => absurd (hctrl _ h) (by decide), hp⟩

theorem document_append (c : Collected) (x y : Text) : document c (x ++ y) = document c x ++ y := by
  simp only [document, metricsMembers, member, List.append_assoc, List.cons_append]

theorem notMem_reading {d : Char} (hd : d.isDigit = false) (hdot : d ≠ '.') (hdash : d ≠ '-') (r : Reading) :
    d ∉ r.text := by
  cases r with
  | number n frac =>
    cases frac with
    | nil => exact notMem_decimal hd n
    | cons e es =>
      have hfrac : d ∉ (e :: es).map fun e : Fin 10 => Nat.digitChar e.val := by
        intro h
        obtain ⟨k, -, rfl⟩ := List.mem_map.mp h
        rw [isDigit_digitChar _ k.isLt] at hd
        cases hd
      simp only [Reading.text, List.mem_append, List.mem_cons, not_or]
      exact ⟨notMem_decimal hd n, hdot, by simpa using hfrac⟩
  | dash => simpa [Reading.text] using hdash
  | empty => exact List.not_mem_nil

theorem nul_notMem_document (c : Collected) {x : Text} (hx : '\x00' ∉ x) : '\x00' ∉ document c x := by
  have hr : ∀ r : Reading, '\x00' ∉ r.text := notMem_reading (by decide) (by decide) (by decide)
  have hm : ∀ {w k t : Text}, '\x00' ∉ w ++ k → '\x00' ∉ t → '\x00' ∉ member w k t := by
    intro w k t hwk ht
    rw [List.mem_append, not_or] at hwk
    simp [member, hwk.1, hwk.2, ht]
  have hq : ∀ {s t : Text}, '\x00' ∉ s → '\x00' ∉ t → '\x00' ∉ '"' :: (s ++ '"' :: t) := by
    intro s t hs ht
    simp [hs, ht]
  have hf : ∀ {s t : Text}, '\x00' ∉ s → '\x00' ∉ t → '\x00' ∉ s ++ ',' :: t := by
    intro s t hs ht
    simp [hs, ht]
  have hc : ∀ {d : Char} {t : Text}, '\x00' ≠ d → '\x00' ∉ t → '\x00' ∉ d :: t := by
    intro d t hd ht
    simp [hd, ht]
  refine hc (by decide) (hm (by decide) (hf (notMem_decimal (by decide) _) (hm (by decide) (hq c.host.nul
    (hc (by decide) (hm (by decide) (hq c.ip.nul (hc (by decide) (hm (by decide) (hc (by decide) ?_))))))))))
  refine hm (by decide) (hq c.uptime.nul (hc (by decide) (hm (by decide) (hf (hr _) (hm (by decide)
    (hf (hr _) (hm (by decide) (hf (hr _) (hm (by decide) (hq c.load.nul ?_))))))))))
  rw [List.mem_append, not_or]
  exact ⟨by decide, hm (by decide) hx⟩

/-- `JSON_DATA` is the document with the literal of the alerts in it. -/
theorem jsonData_eq (jq : Jq) (c : Collected) : ∃ w,
    jsonData jq c = document c ('"' :: (w ++ '"' :: "\n\x7d".toList)) ∧
      parseString (w ++ ['"']) = some (echo (alertsOf c.alertLog), []) := by
  obtain ⟨w, hw, hn, hp⟩ := jq.literal_spec (echo (alertsOf c.alertLog))
  refine ⟨w, ?_, hp⟩
  have hlit : capture (jq.literal (echo (alertsOf c.alertLog)) ++ ['\n']) = '"' :: (w ++ ['"']) := by
    rw [hw]
    refine capture_append_newline (by simp [hn]) ?_
    rw [← List.cons_append, List.getLast?_concat]
    decide
  have hdoc : hereDocument c ('"' :: (w ++ ['"'])) =
      document c ('"' :: (w ++ '"' :: "\n\x7d".toList)) ++ ['\n'] := by
    rw [hereDocument, ← document_append]
    simp
  rw [jsonData, hlit, hdoc]
  refine capture_append_newline (nul_notMem_document c (by simp [hn])) ?_
  have hlast : document c ('"' :: (w ++ '"' :: "\n\x7d".toList)) =
      document c ('"' :: (w ++ ['"', '\n'])) ++ ['}'] := by
    rw [← document_append]
    simp
  rw [hlast, List.getLast?_concat]
  decide

/-! ### Members, forward and back -/

/-- A string member with plain text. -/
theorem parseMembers_string {k w s : Text} (hk : PlainJson k) (hw : w.all isWs = true) (hs : PlainJson s)
    (n : ℕ) (t : Text) :
    parseMembers (n + 2) (member w k ('"' :: (s ++ '"' :: t))) = continueMembers (n + 1) k (.str s, t) := by
  rw [member, parseMembers_key hk hw, parseValue_string, parseString_plain hs]
  rfl

/-- The first member of a list that was read. -/
theorem head_of_continueMembers {n : ℕ} {k : Text} {v : Json × Text} {ms : List (Text × Json)} {r : Text}
    (h : continueMembers n k v = some (ms, r)) : ∃ ms', ms = (k, v.1) :: ms' := by
  unfold continueMembers at h
  split at h
  · rw [Option.map_eq_some_iff] at h
    obtain ⟨a, -, ha⟩ := h
    exact ⟨a.1, (Prod.mk.inj ha).1.symm⟩
  · exact ⟨[], (Prod.mk.inj (Option.some.inj h)).1.symm⟩
  · cases h

/-- A string member that says what was put in has plain text, if a newline
comes before the next quote. -/
theorem plain_of_parseMembers {k w s t : Text} (hk : PlainJson k) (hw : w.all isWs = true)
    {n : ℕ} {ms : List (Text × Json)} {r : Text}
    (h : parseMembers (n + 2) (member w k ('"' :: (s ++ '"' :: t))) = some (ms, r))
    (hm : Json.memberOf k ms = some (.str s)) (ht : ∃ a b, '"' ∉ a ∧ t = a ++ '\n' :: b) :
    PlainJson s ∧ continueMembers (n + 1) k (.str s, t) = some (ms, r) := by
  have hplain : PlainJson s := by
    obtain ⟨a, b, ha, rfl⟩ := ht
    rw [member, parseMembers_key hk hw, parseValue_string] at h
    simp only [Option.bind_eq_some_iff, Option.map_eq_some_iff] at h
    obtain ⟨v, ⟨⟨s', t'⟩, hs', rfl⟩, hcont⟩ := h
    obtain ⟨ms', rfl⟩ := head_of_continueMembers hcont
    have hss : s' = s := Json.str.inj (memberOf_cons hm).1
    rw [hss] at hs'
    exact parseString_eq_self ha hs'
  exact ⟨hplain, by rw [← parseMembers_string hk hw hplain]; exact h⟩

/-- Behind a comma come the next members. -/
theorem continueMembers_cons (n : ℕ) (k : Text) (v : Json) (t : Text) : continueMembers n k (v, ',' :: t) =
    (parseMembers n t).map fun r => ((k, v) :: r.1, r.2) :=
  rfl

theorem continueMembers_comma {n : ℕ} {k : Text} {v : Json} {t : Text} {ms : List (Text × Json)} {r : Text}
    (h : continueMembers n k (v, ',' :: t) = some (ms, r)) :
    ∃ ms', ms = (k, v) :: ms' ∧ parseMembers n t = some (ms', r) := by
  rw [continueMembers_cons, Option.map_eq_some_iff] at h
  obtain ⟨⟨ms', r'⟩, hp, he⟩ := h
  obtain ⟨rfl, rfl⟩ := Prod.mk.inj he
  exact ⟨ms', rfl, hp⟩

theorem continueMembers_of_next {n : ℕ} {k : Text} {v : Json} {t : Text} {m : List (Text × Json)} {r : Text}
    (h : parseMembers n t = some (m, r)) :
    continueMembers n k (v, ',' :: t) = some ((k, v) :: m, r) := by
  rw [continueMembers_cons, h]
  rfl

theorem continueMembers_of_none {n : ℕ} {k : Text} {v : Json} {t : Text} (h : parseMembers n t = none) :
    continueMembers n k (v, ',' :: t) = none := by
  rw [continueMembers_cons, h]
  rfl

/-- A member that is a figure. -/
theorem parseMembers_reading {k w : Text} {q : Reading} (hk : PlainJson k) (hw : w.all isWs = true)
    (hq : q.isNumber) (n : ℕ) (t : Text) :
    parseMembers (n + 2) (member w k (q.text ++ ',' :: t)) = continueMembers (n + 1) k (.num q.text, ',' :: t) := by
  rw [member, parseMembers_key hk hw, parseValue_reading hq]
  rfl

theorem parseMembers_no_reading {k w : Text} {q : Reading} (hk : PlainJson k) (hw : w.all isWs = true)
    (hq : ¬ q.isNumber) (n : ℕ) (t : Text) : parseMembers (n + 2) (member w k (q.text ++ ',' :: t)) = none := by
  rw [member, parseMembers_key hk hw, parseValue_no_reading hq]
  rfl

theorem isNumber_of_parseMembers {k w t : Text} {q : Reading} (hk : PlainJson k) (hw : w.all isWs = true)
    {n : ℕ} {ms : List (Text × Json)} {r : Text}
    (h : parseMembers (n + 2) (member w k (q.text ++ ',' :: t)) = some (ms, r)) :
    q.isNumber ∧ continueMembers (n + 1) k (.num q.text, ',' :: t) = some (ms, r) := by
  have hq : q.isNumber := by
    by_contra hq
    rw [parseMembers_no_reading hk hw hq] at h
    cases h
  exact ⟨hq, by rw [← parseMembers_reading hk hw hq]; exact h⟩

/-! ### The alerts -/

theorem nul_mem_chomp {u : Text} : '\x00' ∈ chomp u ↔ '\x00' ∈ u := by
  constructor
  · exact fun h => (List.rdropWhile_prefix _ _).subset h
  · intro h
    have hsplit : u = chomp u ++ u.rtakeWhile (· = '\n') := List.rdropWhile_append_rtakeWhile.symm
    rw [hsplit, List.mem_append] at h
    rcases h with h | h
    · exact h
    · exact absurd (List.mem_rtakeWhile_imp h) (by decide)

/-- What `echo` prints of a captured text. -/
theorem echo_capture (u : Text) : echo (capture u) = chomp u ++ ['\n'] ↔
    '\x00' ∉ u ∧ isEchoOption (chomp u) = false := by
  have hnul : '\x00' ∉ echo (capture u) := by
    have hcap : '\x00' ∉ capture u := by
      rw [capture, nul_mem_chomp]
      simp
    unfold echo
    split
    · split <;> decide
    · simp [hcap]
  constructor
  · intro h
    have hu : '\x00' ∉ u := by
      rw [h, List.mem_append, not_or, nul_mem_chomp] at hnul
      exact hnul.1
    rw [capture, filter_nul hu, echo] at h
    refine ⟨hu, ?_⟩
    by_contra ho
    rw [Bool.not_eq_false] at ho
    rw [if_pos ho] at h
    -- an option is not empty, so less is printed than is wanted
    have hlen : 0 < (chomp u).length := by
      cases hc : chomp u with
      | nil => rw [hc] at ho; cases ho
      | cons c t => exact Nat.succ_pos _
    have hlong := congrArg List.length h
    rw [List.length_append, List.length_singleton] at hlong
    split at hlong
    · cases hlong
    · rw [List.length_singleton] at hlong
      omega
  · rintro ⟨hn, ho⟩
    rw [capture, filter_nul hn, echo, if_neg (by simp [ho])]

/-- The alerts arrive unless the shell changes them. -/
theorem echo_alertsOf (log : Option Text) : echo (alertsOf log) = wantedAlerts log ↔
    ∀ t, log = some t → '\x00' ∉ tailLines 10 t ∧ isEchoOption (chomp (tailLines 10 t)) = false := by
  cases log with
  | none =>
    have hnone : echo (alertsOf none) = wantedAlerts none := by decide
    exact iff_of_true hnone fun _ h => by cases h
  | some t =>
    refine (echo_capture (tailLines 10 t)).trans ⟨fun h u hu => ?_, fun h => h t rfl⟩
    rw [← Option.some.inj hu]
    exact h

/-! ### The document -/

/-- The members of `metrics` as they should be read. -/
def Collected.metrics (c : Collected) : List (Text × Json) :=
  [("uptime".toList, .str c.uptime.text), ("cpu_usage".toList, .num c.cpu.text),
    ("memory_usage".toList, .num c.mem.text), ("disk_usage".toList, .num c.disk.text),
    ("load_average".toList, .str c.load.text)]

/-- The members of the event as they should be read. -/
def Collected.members (c : Collected) (alerts : Text) : List (Text × Json) :=
  [("timestamp".toList, .num (decimal c.timestamp)), ("host".toList, .str c.host.text),
    ("ip".toList, .str c.ip.text), ("metrics".toList, .obj c.metrics), ("alerts".toList, .str alerts)]

theorem skipWs_member {w : Text} (hw : w.all isWs = true) (k t : Text) :
    skipWs (member w k t) = member [] k t := by
  rw [member, skipWs_append hw]
  rfl

/-- An object with a member. -/
theorem parseValue_object {w k : Text} (hw : w.all isWs = true) (n : ℕ) (t : Text) :
    parseValue (n + 2) ('{' :: member w k t) =
      (parseMembers (n + 1) (member w k t)).map fun r => (.obj r.1, r.2) := by
  have hobj : skipWs ('{' :: member w k t) = '{' :: member w k t := rfl
  have hindent : parseMembers (n + 1) (member [] k t) = parseMembers (n + 1) (member w k t) := by
    rw [parseMembers, parseMembers, skipWs_member hw, skipWs_member rfl]
  rw [parseValue, hobj, ← hindent]
  simp only [skipWs_member hw]
  rfl

theorem parseMembers_object {k w l v : Text} (hk : PlainJson k) (hw : w.all isWs = true)
    (hv : v.all isWs = true) (n : ℕ) (t : Text) :
    parseMembers (n + 3) (member w k ('{' :: member v l t)) =
      ((parseMembers (n + 1) (member v l t)).map fun r => (Json.obj r.1, r.2)).bind
        (continueMembers (n + 2) k) := by
  rw [member, parseMembers_key hk hw, ← parseValue_object hv]
  rfl

theorem parseMembers_metrics {c : Collected} (h : c.Plain) (n : ℕ) (rest : Text) :
    parseMembers (n + 6) (metricsMembers c rest) = some (c.metrics, ',' :: rest) := by
  rw [metricsMembers, parseMembers_string (by decide) (by decide) h.uptime]
  refine continueMembers_of_next ?_
  rw [parseMembers_reading (by decide) (by decide) h.cpu]
  refine continueMembers_of_next ?_
  rw [parseMembers_reading (by decide) (by decide) h.mem]
  refine continueMembers_of_next ?_
  rw [parseMembers_reading (by decide) (by decide) h.disk]
  refine continueMembers_of_next ?_
  rw [parseMembers_string (by decide) (by decide) h.load]
  rfl

/-- Only plain strings and figures are read back from `metrics`. -/
theorem plain_of_metrics {c : Collected} {n : ℕ} {rest r : Text} {ms : List (Text × Json)}
    (h : parseMembers (n + 6) (metricsMembers c rest) = some (ms, r))
    (hup : Json.memberOf "uptime".toList ms = some (.str c.uptime.text))
    (hload : Json.memberOf "load_average".toList ms = some (.str c.load.text)) :
    PlainJson c.uptime.text ∧ PlainJson c.load.text ∧ c.cpu.isNumber ∧ c.mem.isNumber ∧ c.disk.isNumber := by
  unfold metricsMembers at h
  obtain ⟨huptime, h₁⟩ := plain_of_parseMembers (by decide) (by decide) h hup ⟨[','], _, by decide, rfl⟩
  obtain ⟨ms₁, rfl, k₁⟩ := continueMembers_comma h₁
  obtain ⟨hcpu, h₂⟩ := isNumber_of_parseMembers (by decide) (by decide) k₁
  obtain ⟨ms₂, rfl, k₂⟩ := continueMembers_comma h₂
  obtain ⟨hmem, h₃⟩ := isNumber_of_parseMembers (by decide) (by decide) k₂
  obtain ⟨ms₃, rfl, k₃⟩ := continueMembers_comma h₃
  obtain ⟨hdisk, h₄⟩ := isNumber_of_parseMembers (by decide) (by decide) k₃
  obtain ⟨ms₄, rfl, k₄⟩ := continueMembers_comma h₄
  rw [memberOf_cons_ne _ _ (by decide), memberOf_cons_ne _ _ (by decide), memberOf_cons_ne _ _ (by decide),
    memberOf_cons_ne _ _ (by decide)] at hload
  obtain ⟨hplain, -⟩ := plain_of_parseMembers (by decide) (by decide) k₄ hload ⟨[], _, by decide, rfl⟩
  exact ⟨huptime, hplain, hcpu, hmem, hdisk⟩

/-- There is fuel enough for the deepest member. -/
theorem length_document (c : Collected) (x : Text) : ∃ n, (document c x).length = n + 11 := by
  have hname : "timestamp".toList.length = 9 := by decide
  refine Nat.exists_eq_add_of_le' ?_
  simp only [document, member, List.length_cons, List.length_append, hname]
  omega

/-- A plain event is read back whole. -/
theorem decode_document {c : Collected} (h : c.Plain) {w alerts : Text}
    (hw : parseString (w ++ ['"']) = some (alerts, [])) :
    Json.decode (document c ('"' :: (w ++ '"' :: "\n\x7d".toList))) = some (.obj (c.members alerts)) := by
  obtain ⟨n, hn⟩ := length_document c ('"' :: (w ++ '"' :: "\n\x7d".toList))
  have hstring : parseString (w ++ '"' :: "\n\x7d".toList) = some (alerts, "\n\x7d".toList) := by
    have := parseString_append hw "\n\x7d".toList
    simpa using this
  have halerts : parseMembers (n + 7) (member "\n  ".toList "alerts".toList
      ('"' :: (w ++ '"' :: "\n\x7d".toList))) = some ([("alerts".toList, .str alerts)], []) := by
    rw [member, parseMembers_key (by decide) (by decide), parseValue_string, hstring]
    rfl
  have htime : decimal c.timestamp = (Reading.number c.timestamp []).text := rfl
  rw [Json.decode, hn, document, parseValue_object (by decide), htime,
    parseMembers_reading (q := .number c.timestamp []) (by decide) (by decide) trivial]
  rw [continueMembers_of_next (r := []) (m := (c.members alerts).tail)]
  · rfl
  rw [parseMembers_string (by decide) (by decide) h.host]
  refine continueMembers_of_next ?_
  rw [parseMembers_string (by decide) (by decide) h.ip]
  refine continueMembers_of_next ?_
  rw [metricsMembers, parseMembers_object (by decide) (by decide) (by decide), ← metricsMembers,
    parseMembers_metrics h]
  exact continueMembers_of_next halerts

/-- An event that is read back as it was collected is plain. -/
theorem plain_of_faithful {c : Collected} {x : Text} (h : Faithful c (document c x)) : c.Plain := by
  obtain ⟨ms, metrics, hdec, -, hhost, hip, hmetrics, hup, hload, -⟩ := h
  obtain ⟨n, hn⟩ := length_document c x
  rw [Json.decode, hn, Option.bind_eq_some_iff] at hdec
  obtain ⟨⟨v, r⟩, hv, hend⟩ := hdec
  have hobj : v = .obj ms := by
    split at hend
    · exact Option.some.inj hend
    · cases hend
  rw [hobj, document, parseValue_object (by decide), Option.map_eq_some_iff] at hv
  obtain ⟨⟨ms', r'⟩, hparse, heq⟩ := hv
  obtain ⟨hms, rfl⟩ := Prod.mk.inj heq
  obtain rfl : ms' = ms := Json.obj.inj hms
  obtain ⟨-, h₁⟩ := isNumber_of_parseMembers (q := .number c.timestamp []) (by decide) (by decide) hparse
  obtain ⟨ms₁, rfl, k₁⟩ := continueMembers_comma h₁
  rw [memberOf_cons_ne _ _ (by decide)] at hhost hip hmetrics
  obtain ⟨hplain, h₂⟩ := plain_of_parseMembers (by decide) (by decide) k₁ hhost ⟨[','], _, by decide, rfl⟩
  obtain ⟨ms₂, rfl, k₂⟩ := continueMembers_comma h₂
  rw [memberOf_cons_ne _ _ (by decide)] at hip hmetrics
  obtain ⟨hplain', h₃⟩ := plain_of_parseMembers (by decide) (by decide) k₂ hip ⟨[','], _, by decide, rfl⟩
  obtain ⟨ms₃, rfl, k₃⟩ := continueMembers_comma h₃
  rw [memberOf_cons_ne _ _ (by decide)] at hmetrics
  rw [metricsMembers, parseMembers_object (by decide) (by decide) (by decide), ← metricsMembers] at k₃
  simp only [Option.bind_eq_some_iff, Option.map_eq_some_iff] at k₃
  obtain ⟨v, ⟨⟨ms₄, r₄⟩, hinner, rfl⟩, hcont⟩ := k₃
  obtain ⟨ms₅, rfl⟩ := head_of_continueMembers hcont
  obtain ⟨rfl, -⟩ := memberOf_cons hmetrics
  obtain ⟨huptime, hlo, hcpu, hmem, hdisk⟩ := plain_of_metrics hinner hup hload
  exact ⟨hplain, hplain', huptime, hlo, hcpu, hmem, hdisk⟩

/-- **The event is faithful exactly for clean data.** -/
theorem jsonData_faithful_iff (jq : Jq) (c : Collected) : Faithful c (jsonData jq c) ↔ c.Clean := by
  obtain ⟨w, hdata, hw⟩ := jsonData_eq jq c
  rw [hdata]
  -- for plain data, faithful is what is left to say of the alerts
  have halerts : c.Plain → (Faithful c (document c ('"' :: (w ++ '"' :: "\n\x7d".toList))) ↔
      echo (alertsOf c.alertLog) = wantedAlerts c.alertLog) := by
    intro h
    constructor
    · rintro ⟨ms, metrics, hdec, -, -, -, -, -, -, -, -, -, hal⟩
      rw [decode_document h hw] at hdec
      obtain rfl := Json.obj.inj (Option.some.inj hdec)
      exact Json.str.inj (Option.some.inj hal)
    · intro heq
      exact ⟨_, _, decode_document h hw, rfl, rfl, rfl, rfl, rfl, rfl, fun _ => rfl, fun _ => rfl, fun _ => rfl,
        by rw [← heq]; rfl⟩
  constructor
  · intro h
    have hplain := plain_of_faithful h
    have hshell := (echo_alertsOf c.alertLog).mp ((halerts hplain).mp h)
    exact ⟨hplain, fun t ht => (hshell t ht).1, fun t ht => (hshell t ht).2⟩
  · intro h
    exact (halerts h.toPlain).mpr ((echo_alertsOf c.alertLog).mpr fun t ht => ⟨h.nul t ht, h.option t ht⟩)

/-! ### A run without a figure -/

theorem parseMembers_metrics_none {c : Collected} (hup : PlainJson c.uptime.text)
    (h : ¬ (c.cpu.isNumber ∧ c.mem.isNumber ∧ c.disk.isNumber)) (n : ℕ) (rest : Text) :
    parseMembers (n + 6) (metricsMembers c rest) = none := by
  rw [metricsMembers, parseMembers_string (by decide) (by decide) hup]
  refine continueMembers_of_none ?_
  by_cases hcpu : c.cpu.isNumber
  swap
  · exact parseMembers_no_reading (by decide) (by decide) hcpu _ _
  rw [parseMembers_reading (by decide) (by decide) hcpu]
  refine continueMembers_of_none ?_
  by_cases hmem : c.mem.isNumber
  swap
  · exact parseMembers_no_reading (by decide) (by decide) hmem _ _
  rw [parseMembers_reading (by decide) (by decide) hmem]
  refine continueMembers_of_none ?_
  exact parseMembers_no_reading (by decide) (by decide) (fun hdisk => h ⟨hcpu, hmem, hdisk⟩) _ _

/-- Without one of the figures the event is no JSON at all. -/
theorem decode_of_no_figure (jq : Jq) {c : Collected} (hhost : PlainJson c.host.text)
    (hip : PlainJson c.ip.text) (hup : PlainJson c.uptime.text)
    (h : ¬ (c.cpu.isNumber ∧ c.mem.isNumber ∧ c.disk.isNumber)) : Json.decode (jsonData jq c) = none := by
  obtain ⟨w, hdata, -⟩ := jsonData_eq jq c
  obtain ⟨n, hn⟩ := length_document c ('"' :: (w ++ '"' :: "\n\x7d".toList))
  have htime : decimal c.timestamp = (Reading.number c.timestamp []).text := rfl
  rw [hdata, Json.decode, hn, document, parseValue_object (by decide), htime,
    parseMembers_reading (q := .number c.timestamp []) (by decide) (by decide) trivial, continueMembers_of_none]
  · rfl
  rw [parseMembers_string (by decide) (by decide) hhost]
  refine continueMembers_of_none ?_
  rw [parseMembers_string (by decide) (by decide) hip]
  refine continueMembers_of_none ?_
  rw [metricsMembers, parseMembers_object (by decide) (by decide) (by decide), ← metricsMembers,
    parseMembers_metrics_none hup h]
  rfl

/-- One way to write a character in a string literal. -/
def escape (c : Char) : Text :=
  if c = '"' then ['\\', '"']
  else if c = '\\' then ['\\', '\\']
  else if c.toNat < 32 then
    ['\\', 'u', '0', '0', Nat.digitChar (c.toNat / 16), Nat.digitChar (c.toNat % 16)]
  else [c]

theorem hexFour_control : ∀ n < 32,
    hexFour '0' '0' (Nat.digitChar (n / 16)) (Nat.digitChar (n % 16)) = some n := by
  decide

theorem parseBody_escape (c : Char) (t : Text) :
    parseBody (escape c ++ t) = (parseBody t).map fun r => (.char c :: r.1, r.2) := by
  unfold escape
  split
  case isTrue hq => rw [hq]; rfl
  case isFalse hq =>
  split
  case isTrue hb => rw [hb]; rfl
  case isFalse hb =>
  split
  case isTrue hc =>
    have hpiece : pieceOf c.toNat = .char c := by
      rw [pieceOf, if_neg (by omega), Char.ofNat_toNat]
    have hbody : parseBody ('\\' :: 'u' :: '0' :: '0' :: Nat.digitChar (c.toNat / 16) ::
        Nat.digitChar (c.toNat % 16) :: t) = (some c.toNat).bind fun n =>
          (parseBody t).map fun r => (pieceOf n :: r.1, r.2) := by
      rw [← hexFour_control c.toNat hc]
      rfl
    rw [Option.bind_some, hpiece] at hbody
    exact hbody
  case isFalse hc => exact parseBody_cons ((isPlainJson_iff c).mpr ⟨hq, hb, by omega⟩) t

theorem parseBody_flatMap_escape : ∀ x t : Text,
    parseBody (x.flatMap escape ++ '"' :: t) = some (x.map Piece.char, t)
  | [], _ => rfl
  | c :: x, t => by
    rw [List.flatMap_cons, List.append_assoc, parseBody_escape, parseBody_flatMap_escape x t]
    rfl

/-- A `jq` that escapes no more than it must. -/
def Jq.sparing : Jq where
  literal x := '"' :: (x.flatMap escape ++ ['"'])
  decodes x := ⟨_, rfl, by rw [parseString, parseBody_flatMap_escape, Option.map_some, joinPieces_map_char]⟩

/-- A host whose root file system has no use percentage: `df` prints a dash. -/
def rootless : Collected where
  timestamp := 1700000000
  host := ⟨"web".toList, by decide, by decide⟩
  ip := ⟨"10.0.0.2".toList, by decide, by decide⟩
  uptime := ⟨"2023-11-01 08:00:00".toList, by decide, by decide⟩
  cpu := .number 3 [2]
  mem := .number 41 [5, 0]
  disk := .dash
  load := ⟨"0.10 0.20 0.30".toList, by decide, by decide⟩
  alertLog := none

/-- **Without a figure for the disk the event is no JSON.** -/
theorem jsonData_rootless : Json.decode (jsonData .sparing rootless) = none ∧
    ¬ Faithful rootless (jsonData .sparing rootless) := by
  have hdec : Json.decode (jsonData .sparing rootless) = none :=
    decode_of_no_figure .sparing (by decide) (by decide) (by decide) fun h => h.2.2
  exact ⟨hdec, fun ⟨_, _, h, _⟩ => by rw [hdec] at h; cases h⟩
end Croner
end OpsScripts
