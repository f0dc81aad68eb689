/-
# Reading JSON

A reader for JSON texts: `Json.decode` accepts a text that is one JSON value
with white space around it. Numbers keep their literal. An object keeps its
members in order, and `Json.field?` gives a member's value only if its name
occurs once, since readers differ on names that occur twice.

What a string literal costs: every escape is longer than what it stands for,
so a literal that stands for as many characters as it has is made of plain
characters (`parseBody_spec`), and a text that was put between quotes
unescaped is read back only if it is plain (`parseString_eq_self`).

Key definitions: `Json`, `parseString`, `parseValue`, `Json.decode`, `PlainJson`.
-/
import OpsScripts.Text

namespace OpsScripts

/-- A JSON value. -/
inductive Json
  | null
  | bool (b : Bool)
  | num (lit : Text)
  | str (s : Text)
  | arr (xs : List Json)
  | obj (ms : List (Text × Json))

/-! ### Strings -/

/-- A piece of a string: a character, or one half of a pair of escapes. -/
inductive Piece
  | char (c : Char)
  | half (n : ℕ)
  deriving DecidableEq

/-- Halves that belong together become one character; a single one becomes
the replacement character. -/
def joinPieces : List Piece → Text
  | [] => []
  | .char c :: ps => c :: joinPieces ps
  | .half hi :: .half lo :: ps =>
    if hi < 0xdc00 ∧ 0xdc00 ≤ lo then
      Char.ofNat (0x10000 + (hi - 0xd800) * 0x400 + (lo - 0xdc00)) :: joinPieces ps
    else '�' :: joinPieces (.half lo :: ps)
  | .half _ :: ps => '�' :: joinPieces ps

/-- The piece that four hexadecimal digits stand for. -/
def pieceOf (n : ℕ) : Piece := if 0xd800 ≤ n ∧ n < 0xe000 then .half n else .char (Char.ofNat n)

/-- The value of a hexadecimal digit. -/
def hexValue (c : Char) : Option ℕ :=
  if c.isDigit then some (c.toNat - 48)
  else if 'a' ≤ c ∧ c ≤ 'f' then some (c.toNat - 87)
  else if 'A' ≤ c ∧ c ≤ 'F' then some (c.toNat - 55)
  else none

/-- The value of four hexadecimal digits. -/
def hexFour (a b c d : Char) : Option ℕ :=
  (hexValue a).bind fun a => (hexValue b).bind fun b => (hexValue c).bind fun c =>
    (hexValue d).map fun d => ((a * 16 + b) * 16 + c) * 16 + d

/-- The character after a backslash. -/
def simpleEscape (c : Char) : Option Char :=
  if c = '"' ∨ c = '\\' ∨ c = '/' then some c
  else if c = 'b' then some '\x08'
  else if c = 'f' then some '\x0c'
  else if c = 'n' then some '\n'
  else if c = 'r' then some '\r'
  else if c = 't' then some '\t'
  else none

/-- The rest of a string literal, behind its opening quote: the pieces up to
the closing quote, and what follows it. -/
def parseBody : Text → Option (List Piece × Text)
  | [] => none
  | '"' :: t => some ([], t)
  | '\\' :: 'u' :: a :: b :: c :: d :: t =>
    (hexFour a b c d).bind fun n => (parseBody t).map fun r => (pieceOf n :: r.1, r.2)
  | '\\' :: e :: t => (simpleEscape e).bind fun x => (parseBody t).map fun r => (.char x :: r.1, r.2)
  | '\\' :: [] => none
  | c :: t => if c.toNat < 32 then none else (parseBody t).map fun r => (.char c :: r.1, r.2)

/-- The same with the pieces joined. -/
def parseString (t : Text) : Option (Text × Text) := (parseBody t).map fun r => (joinPieces r.1, r.2)

/-! ### Values -/

/-- JSON's white space. -/
def isWs (c : Char) : Bool := c = ' ' || c = '\t' || c = '\n' || c = '\r'

def skipWs (t : Text) : Text := t.dropWhile isWs

/-- The digits at the front of a text, one at least. -/
def digits1 (t : Text) : Option (Text × Text) :=
  if t.takeWhile Char.isDigit = [] then none
  else some (t.takeWhile Char.isDigit, t.dropWhile Char.isDigit)

/-- An integer without leading zeros. -/
def parseInt (t : Text) : Option (Text × Text) :=
  (digits1 t).bind fun r => if r.1.head? = some '0' ∧ 1 < r.1.length then none else some r

/-- The fraction, if there is one. -/
def parseFrac : Text → Option (Text × Text)
  | '.' :: t => (digits1 t).map fun r => ('.' :: r.1, r.2)
  | t => some ([], t)

/-- The sign of an exponent. -/
def parseSign : Text → Text × Text
  | '+' :: t => (['+'], t)
  | '-' :: t => (['-'], t)
  | t => ([], t)

/-- The exponent, if there is one. -/
def parseExp : Text → Option (Text × Text)
  | [] => some ([], [])
  | c :: t =>
    if c = 'e' ∨ c = 'E' then
      (digits1 (parseSign t).2).map fun r => (c :: ((parseSign t).1 ++ r.1), r.2)
    else some ([], c :: t)

/-- An unsigned number. -/
def parseUnsigned (t : Text) : Option (Text × Text) :=
  (parseInt t).bind fun i => (parseFrac i.2).bind fun f => (parseExp f.2).map fun e =>
    (i.1 ++ (f.1 ++ e.1), e.2)

/-- A number. -/
def parseNumber : Text → Option (Text × Text)
  | '-' :: t => (parseUnsigned t).map fun r => ('-' :: r.1, r.2)
  | t => parseUnsigned t

mutual

/-- A value at the front of a text, and what follows it. Each call reads a
character at least, so the length of the text is enough fuel. -/
def parseValue : ℕ → Text → Option (Json × Text)
  | 0, _ => none
  | n + 1, t =>
    match skipWs t with
    | '{' :: t =>
      match skipWs t with
      | '}' :: t => some (.obj [], t)
      | t => (parseMembers n t).map fun r => (.obj r.1, r.2)
    | '[' :: t =>
      match skipWs t with
      | ']' :: t => some (.arr [], t)
      | t => (parseElements n t).map fun r => (.arr r.1, r.2)
    | '"' :: t => (parseString t).map fun r => (.str r.1, r.2)
    | 't' :: 'r' :: 'u' :: 'e' :: t => some (.bool true, t)
    | 'f' :: 'a' :: 'l' :: 's' :: 'e' :: t => some (.bool false, t)
    | 'n' :: 'u' :: 'l' :: 'l' :: t => some (.null, t)
    | t => (parseNumber t).map fun r => (.num r.1, r.2)

/-- The members of an object, up to its closing brace. -/
def parseMembers : ℕ → Text → Option (List (Text × Json) × Text)
  | 0, _ => none
  | n + 1, t =>
    match skipWs t with
    | '"' :: t =>
      (parseString t).bind fun k =>
        match skipWs k.2 with
        | ':' :: t =>
          (parseValue n t).bind fun v =>
            match skipWs v.2 with
            | ',' :: t => (parseMembers n t).map fun r => ((k.1, v.1) :: r.1, r.2)
            | '}' :: t => some ([(k.1, v.1)], t)
            | _ => none
        | _ => none
    | _ => none

/-- The elements of an array, up to its closing bracket. -/
def parseElements : ℕ → Text → Option (List Json × Text)
  | 0, _ => none
  | n + 1, t =>
    (parseValue n t).bind fun v =>
      match skipWs v.2 with
      | ',' :: t => (parseElements n t).map fun r => (v.1 :: r.1, r.2)
      | ']' :: t => some ([v.1], t)
      | _ => none

end

namespace Json

/-- A text that is one JSON value. -/
def decode (t : Text) : Option Json :=
  (parseValue (t.length + 1) t).bind fun r => if skipWs r.2 = [] then some r.1 else none

/-- The value of the member of that name, if there is exactly one. -/
def memberOf (k : Text) (ms : List (Text × Json)) : Option Json :=
  match ms.filter fun m => decide (m.1 = k) with
  | [m] => some m.2
  | _ => none

def field? (k : Text) : Json → Option Json
  | obj ms => memberOf k ms
  | _ => none

end Json

/-! ### String literals -/

/-- A character that stands for itself in a string literal. -/
def isPlainJson (c : Char) : Bool := decide (c ≠ '"') && decide (c ≠ '\\') && decide (32 ≤ c.toNat)

/-- A text of such characters. -/
def PlainJson (t : Text) : Prop := ∀ c ∈ t, isPlainJson c = true

instance (t : Text) : Decidable (PlainJson t) := decidable_of_iff (t.all isPlainJson = true) List.all_eq_true

theorem isPlainJson_iff (c : Char) : isPlainJson c = true ↔ c ≠ '"' ∧ c ≠ '\\' ∧ 32 ≤ c.toNat := by
  simp [isPlainJson, and_assoc]

theorem parseBody_cons {c : Char} (hc : isPlainJson c = true) (t : Text) :
    parseBody (c :: t) = (parseBody t).map fun r => (.char c :: r.1, r.2) := by
  obtain ⟨hq, hb, h32⟩ := (isPlainJson_iff c).mp hc
  rw [parseBody, if_neg (by omega)]
  · simpa using hq
  · simp [hb]
  · simp [hb]
  · simp [hb]

/-- Plain text between quotes. -/
theorem parseBody_plain : ∀ {s : Text}, PlainJson s → ∀ t : Text,
    parseBody (s ++ '"' :: t) = some (s.map Piece.char, t)
  | [], _, t => by simp [parseBody]
  | c :: s, h, t => by
    rw [List.cons_append, parseBody_cons (h c List.mem_cons_self),
      parseBody_plain (fun x hx => h x (List.mem_cons_of_mem _ hx)) t]
    rfl

theorem joinPieces_map_char : ∀ s : Text, joinPieces (s.map Piece.char) = s
  | [] => rfl
  | c :: s => by rw [List.map_cons, joinPieces, joinPieces_map_char s]

theorem length_joinPieces_le (ps : List Piece) : (joinPieces ps).length ≤ ps.length := by
  induction ps using joinPieces.induct with
  | case1 => exact le_rfl
  | case2 c ps ih => simpa [joinPieces] using ih
  | case3 hi lo ps h ih => simp [joinPieces, h]; omega
  | case4 hi lo ps h ih => simp [joinPieces, h] at ih ⊢; omega
  | case5 n ps h ih =>
    rw [joinPieces]
    · simpa using ih
    · exact h

/-- A hexadecimal digit is no control character. -/
theorem toNat_of_hexValue {c : Char} {n : ℕ} (h : hexValue c = some n) : 32 ≤ c.toNat := by
  unfold hexValue at h
  split at h
  · rename_i hd
    have : '0' ≤ c := by
      simp only [Char.isDigit, Bool.and_eq_true, decide_eq_true_eq] at hd
      exact hd.1
    exact le_trans (by decide) (show '0'.toNat ≤ c.toNat from this)
  · split at h
    · rename_i ha
      exact le_trans (by decide) (show 'a'.toNat ≤ c.toNat from ha.1)
    · split at h
      · rename_i hA
        exact le_trans (by decide) (show 'A'.toNat ≤ c.toNat from hA.1)
      · cases h

theorem toNat_of_hexFour {a b c d : Char} {n : ℕ} (h : hexFour a b c d = some n) :
    32 ≤ a.toNat ∧ 32 ≤ b.toNat ∧ 32 ≤ c.toNat ∧ 32 ≤ d.toNat := by
  simp only [hexFour, Option.bind_eq_some_iff, Option.map_eq_some_iff] at h
  obtain ⟨_, ha, _, hb, _, hc, _, hd, _⟩ := h
  exact ⟨toNat_of_hexValue ha, toNat_of_hexValue hb, toNat_of_hexValue hc, toNat_of_hexValue hd⟩

theorem toNat_of_simpleEscape {c x : Char} (h : simpleEscape c = some x) : 32 ≤ c.toNat := by
  by_contra hc
  have hne : ∀ d : Char, 32 ≤ d.toNat → c ≠ d := by
    rintro d hd rfl
    exact hc hd
  have h1 := hne '"' (by decide)
  have h2 := hne '\\' (by decide)
  have h3 := hne '/' (by decide)
  have h4 := hne 'b' (by decide)
  have h5 := hne 'f' (by decide)
  have h6 := hne 'n' (by decide)
  have h7 := hne 'r' (by decide)
  have h8 := hne 't' (by decide)
  simp [simpleEscape, h1, h2, h3, h4, h5, h6, h7, h8] at h

/-- **What a literal costs.** The text of a literal has no control character
in it and at least as many characters as it stands for, and only plain text
has exactly as many. -/
theorem parseBody_spec : ∀ (t : Text) (ps : List Piece) (r : Text), parseBody t = some (ps, r) →
    ∃ b, t = b ++ '"' :: r ∧ (∀ c ∈ b, 32 ≤ c.toNat) ∧ ps.length ≤ b.length ∧
      (b.length ≤ ps.length → PlainJson b) := by
  intro t
  induction t using parseBody.induct with
  | case1 => intro ps r h; simp [parseBody] at h
  | case2 t =>
    intro ps r h
    rw [parseBody, Option.some.injEq, Prod.mk.injEq] at h
    obtain ⟨rfl, rfl⟩ := h
    exact ⟨[], rfl, by simp, le_rfl, fun _ c hc => by cases hc⟩
  | case3 a b c d t ih =>
    intro ps r h
    rw [parseBody] at h
    simp only [Option.bind_eq_some_iff, Option.map_eq_some_iff, Prod.mk.injEq] at h
    obtain ⟨n, hn, ⟨qs, r'⟩, hq, rfl, rfl⟩ := h
    obtain ⟨w, rfl, hw, hle, -⟩ := ih qs r' hq
    obtain ⟨ha, hb, hc, hd⟩ := toNat_of_hexFour hn
    refine ⟨'\\' :: 'u' :: a :: b :: c :: d :: w, rfl, ?_, ?_, ?_⟩
    · simp only [List.forall_mem_cons]
      exact ⟨by decide, by decide, ha, hb, hc, hd, hw⟩
    · simp only [List.length_cons]; omega
    · intro h; simp only [List.length_cons] at h; omega
  | case4 e t hu ih =>
    intro ps r h
    rw [parseBody] at h
    · simp only [Option.bind_eq_some_iff, Option.map_eq_some_iff, Prod.mk.injEq] at h
      obtain ⟨x, hx, ⟨qs, r'⟩, hq, rfl, rfl⟩ := h
      obtain ⟨w, rfl, hw, hle, -⟩ := ih qs r' hq
      refine ⟨'\\' :: e :: w, rfl, ?_, ?_, ?_⟩
      · simp only [List.forall_mem_cons]
        exact ⟨by decide, toNat_of_simpleEscape hx, hw⟩
      · simp only [List.length_cons]; omega
      · intro h; simp only [List.length_cons] at h; omega
    · exact hu
  | case5 => intro ps r h; simp [parseBody] at h
  | case6 c t h1 h2 h3 h4 hc =>
    intro ps r h
    rw [parseBody, if_pos hc] at h
    · cases h
    all_goals assumption
  | case7 c t h1 h2 h3 h4 hc ih =>
    intro ps r h
    have hb : c ≠ '\\' := by
      rintro rfl
      cases t with
      | nil => exact h4 rfl rfl
      | cons e t => exact h3 e t rfl rfl
    rw [parseBody, if_neg hc] at h
    · simp only [Option.map_eq_some_iff, Prod.mk.injEq] at h
      obtain ⟨⟨qs, r'⟩, hq, rfl, rfl⟩ := h
      obtain ⟨w, rfl, hw, hle, hplain⟩ := ih qs r' hq
      refine ⟨c :: w, rfl, ?_, ?_, ?_⟩
      · simp only [List.forall_mem_cons]
        exact ⟨by omega, hw⟩
      · simp only [List.length_cons]; omega
      · intro hlen x hx
        rcases List.mem_cons.mp hx with rfl | hx
        · exact (isPlainJson_iff x).mpr ⟨h1, hb, by omega⟩
        · exact hplain (by simpa using hlen) x hx
    all_goals assumption

theorem parseString_plain {s : Text} (h : PlainJson s) (t : Text) :
    parseString (s ++ '"' :: t) = some (s, t) := by
  rw [parseString, parseBody_plain h, Option.map_some, joinPieces_map_char]

/-- **Unescaped text between quotes is read back only if it is plain**, when a
newline comes before the next quote. -/
theorem parseString_eq_self {s w rest r : Text} (hw : '"' ∉ w)
    (h : parseString (s ++ '"' :: (w ++ '\n' :: rest)) = some (s, r)) : PlainJson s := by
  simp only [parseString, Option.map_eq_some_iff, Prod.mk.injEq] at h
  obtain ⟨⟨ps, r'⟩, hb, hs, rfl⟩ := h
  obtain ⟨b, heq, hctrl, hle, hplain⟩ := parseBody_spec _ _ _ hb
  have hlen := length_joinPieces_le ps
  simp only at hs heq
  rw [hs] at hlen
  rcases List.append_eq_append_iff.mp heq with ⟨x, rfl, hx⟩ | ⟨x, rfl, hx⟩
  · -- the literal ends behind `s`: then it reaches over the newline
    cases x with
    | nil =>
      rw [List.append_nil] at hplain
      exact hplain hlen
    | cons c x =>
      exfalso
      have hnl : '\n' ∉ x := fun hm =>
        absurd (hctrl '\n' (List.mem_append_right _ (List.mem_cons_of_mem _ hm))) (by decide)
      rw [List.cons_append, List.cons.injEq] at hx
      rcases List.append_eq_append_iff.mp hx.2 with ⟨y, rfl, hy⟩ | ⟨y, rfl, hy⟩
      · cases y with
        | nil => exact absurd (List.cons.inj hy).1 (by decide)
        | cons d y => exact hnl (by rw [(List.cons.inj hy).1]; simp)
      · cases y with
        | nil => exact absurd (List.cons.inj hy).1 (by decide)
        | cons d y => exact hw (by rw [(List.cons.inj hy).1]; simp)
  · -- it ends inside `s`: then it stands for fewer characters
    have hx0 : x = [] := by
      rw [List.length_append] at hlen
      exact List.length_eq_zero_iff.mp (by omega)
    subst hx0
    rw [List.append_nil] at hlen ⊢
    exact hplain hlen

/-- A literal is read the same whatever follows it. -/
theorem parseBody_append (u : Text) : ∀ (t : Text) (ps : List Piece) (r : Text), parseBody t = some (ps, r) →
    parseBody (t ++ u) = some (ps, r ++ u) := by
  intro t
  induction t using parseBody.induct with
  | case1 => intro ps r h; simp [parseBody] at h
  | case2 t =>
    intro ps r h
    rw [parseBody, Option.some.injEq, Prod.mk.injEq] at h
    obtain ⟨rfl, rfl⟩ := h
    simp [parseBody]
  | case3 a b c d t ih =>
    intro ps r h
    rw [parseBody] at h
    simp only [Option.bind_eq_some_iff, Option.map_eq_some_iff, Prod.mk.injEq] at h
    obtain ⟨n, hn, ⟨qs, r'⟩, hq, rfl, rfl⟩ := h
    simp [parseBody, hn, ih qs r' hq]
  | case4 e t hu ih =>
    intro ps r h
    rw [parseBody] at h
    · simp only [Option.bind_eq_some_iff, Option.map_eq_some_iff, Prod.mk.injEq] at h
      obtain ⟨x, hx, ⟨qs, r'⟩, hq, rfl, rfl⟩ := h
      -- an escape of one character is not the start of a longer one
      have hne : e ≠ 'u' := by rintro rfl; simp [simpleEscape] at hx
      rw [List.cons_append, List.cons_append, parseBody, hx, ih qs r' hq]
      · rfl
      · intro a b c d t' he
        exact absurd he hne
    · exact hu
  | case5 => intro ps r h; simp [parseBody] at h
  | case6 c t h1 h2 h3 h4 hc =>
    intro ps r h
    rw [parseBody, if_pos hc] at h
    · cases h
    all_goals assumption
  | case7 c t h1 h2 h3 h4 hc ih =>
    intro ps r h
    have hb : c ≠ '\\' := by
      rintro rfl
      cases t with
      | nil => exact h4 rfl rfl
      | cons e t => exact h3 e t rfl rfl
    have hp : isPlainJson c = true := (isPlainJson_iff c).mpr ⟨h1, hb, by omega⟩
    rw [parseBody_cons hp] at h
    simp only [Option.map_eq_some_iff, Prod.mk.injEq] at h
    obtain ⟨⟨qs, r'⟩, hq, rfl, rfl⟩ := h
    rw [List.cons_append, parseBody_cons hp, ih qs r' hq]
    rfl

theorem parseString_append {t s r : Text} (h : parseString t = some (s, r)) (u : Text) :
    parseString (t ++ u) = some (s, r ++ u) := by
  simp only [parseString, Option.map_eq_some_iff, Prod.mk.injEq] at h ⊢
  obtain ⟨⟨ps, r'⟩, hb, rfl, rfl⟩ := h
  exact ⟨_, parseBody_append u t ps r' hb, rfl, rfl⟩

/-! ### Members of an object -/

theorem skipWs_append {w : Text} (hw : w.all isWs = true) (t : Text) : skipWs (w ++ t) = skipWs t :=
  List.dropWhile_append_of_pos (List.all_eq_true.mp hw)

/-- What follows the value of a member: the next members, or the end of the
object. -/
def continueMembers (n : ℕ) (k : Text) (v : Json × Text) : Option (List (Text × Json) × Text) :=
  match skipWs v.2 with
  | ',' :: t => (parseMembers n t).map fun r => ((k, v.1) :: r.1, r.2)
  | '}' :: t => some ([(k, v.1)], t)
  | _ => none

/-- A member with a plain name. -/
theorem parseMembers_key {k w : Text} (hk : PlainJson k) (hw : w.all isWs = true) (n : ℕ) (t : Text) :
    parseMembers (n + 1) (w ++ '"' :: (k ++ '"' :: ':' :: t)) = (parseValue n t).bind (continueMembers n k) := by
  have hws : skipWs ('"' :: (k ++ '"' :: ':' :: t)) = '"' :: (k ++ '"' :: ':' :: t) := rfl
  have hcolon : skipWs (':' :: t) = ':' :: t := rfl
  rw [parseMembers, skipWs_append hw, hws]
  simp only [parseString_plain hk, Option.bind_some, hcolon]
  rfl

theorem parseValue_string (n : ℕ) (t : Text) :
    parseValue (n + 1) (' ' :: '"' :: t) = (parseString t).map fun r => (.str r.1, r.2) := rfl

/-- The members of the parse and the value of a member whose name is the
first one's. -/
theorem memberOf_cons {k : Text} {v u : Json} {ms : List (Text × Json)}
    (h : Json.memberOf k ((k, v) :: ms) = some u) : v = u ∧ ms.filter (fun m => decide (m.1 = k)) = [] := by
  unfold Json.memberOf at h
  rw [List.filter_cons_of_pos (by simp)] at h
  cases hf : ms.filter fun m => decide (m.1 = k) with
  | nil =>
    rw [hf] at h
    exact ⟨Option.some.inj h, rfl⟩
  | cons m ms' =>
    rw [hf] at h
    cases h

theorem memberOf_cons_ne {k l : Text} (v : Json) (ms : List (Text × Json)) (h : l ≠ k) :
    Json.memberOf k ((l, v) :: ms) = Json.memberOf k ms := by
  unfold Json.memberOf
  rw [List.filter_cons_of_neg (by simpa using h)]

end OpsScripts
