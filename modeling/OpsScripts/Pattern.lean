/-
# Regular expressions of characters and dots, `grep` and `sed s/.../.../g`

The expressions here are sequences of ordinary characters and dots. They
match a fixed number of characters of one line, so `grep` asks whether they
occur in a line, and `sed` replaces the leftmost occurrence, goes on behind
it and never looks at the replacement again.

A text that is read piece by piece is matched piece by piece: `Pattern.after`
is what is left of an expression behind a piece, and `Pattern.occurs_append`
splits a search at the end of one.

Key definitions: `Pattern.occurs`, `Pattern.subst`, `grep`, `grepV`.
Key theorems: `Pattern.occurs_iff`, `Pattern.occurs_append`,
`Pattern.subst_of_matches`, `Pattern.subst_intercalate`.
-/
import OpsScripts.Text

namespace OpsScripts

/-- A part of a text that lacks a character stands on one side of it. -/
theorem infix_append_cons {w a b : Text} {c : Char} (hc : c ∉ w) :
    w <:+: a ++ c :: b ↔ w <:+: a ∨ w <:+: b := by
  constructor
  · rintro ⟨s, t, h⟩
    rw [List.append_assoc, List.append_eq_append_iff] at h
    rcases h with ⟨x, rfl, h⟩ | ⟨x, rfl, h⟩
    · rw [List.append_eq_append_iff] at h
      rcases h with ⟨y, rfl, -⟩ | ⟨y, rfl, h⟩
      · exact Or.inl ⟨s, y, by simp⟩
      · cases y with
        | nil => exact Or.inl ⟨s, [], by simp⟩
        | cons d y =>
          obtain ⟨rfl, -⟩ := List.cons.inj h
          simp at hc
    · cases x with
      | nil =>
        cases w with
        | nil => exact Or.inl (List.nil_infix)
        | cons d w =>
          obtain ⟨rfl, -⟩ := List.cons.inj h
          simp at hc
      | cons d x =>
        obtain ⟨-, rfl⟩ := List.cons.inj h
        exact Or.inr ⟨x, t, by simp⟩
  · rintro (h | h)
    · exact h.trans (List.prefix_append a _).isInfix
    · exact h.trans ((List.suffix_cons c b).trans (List.suffix_append a _)).isInfix

/-- A part of a text that lacks blanks stands in one column. -/
theorem infix_blanks {w : Text} (hw : ' ' ∉ w) (hne : w ≠ []) (n : ℕ) (a b : Text) :
    w <:+: a ++ blanks n ++ b ↔ w <:+: a ∨ w <:+: b := by
  have hrep : ∀ n, w <:+: List.replicate n ' ' ++ b ↔ w <:+: b := by
    intro n
    induction n with
    | zero => rfl
    | succ n ih =>
      rw [List.replicate_succ, List.cons_append, ← List.nil_append (' ' :: _),
        infix_append_cons hw, ih, List.infix_nil]
      simp [hne]
  rw [blanks, List.append_assoc, List.cons_append, infix_append_cons hw, hrep]

/-- One place of an expression: a character, or the dot. -/
inductive Atom
  | lit (c : Char)
  | any
  deriving DecidableEq

/-- The dot matches every character but the newline. -/
def Atom.accepts : Atom → Char → Bool
  | lit c, d => decide (d = c)
  | any, d => decide (d ≠ '\n')

/-- An expression. -/
abbrev Pattern := List Atom

namespace Pattern

/-- The expression a text denotes. -/
def regex (t : Text) : Pattern := t.map fun c => if c = '.' then .any else .lit c

/-- The expression that matches a text and nothing else. -/
def literal (t : Text) : Pattern := t.map .lit

/-- The expression matches a front part of the text. -/
def here : Pattern → Text → Bool
  | [], _ => true
  | _ :: _, [] => false
  | a :: p, c :: t => a.accepts c && here p t

/-- The expression matches somewhere in the text. -/
def occurs (p : Pattern) : Text → Bool
  | [] => p.here []
  | c :: t => p.here (c :: t) || occurs p t

/-- The expression matches all of the text. -/
def Matches (p : Pattern) (t : Text) : Prop := List.Forall₂ (fun a c => a.accepts c = true) p t

theorem here_iff : ∀ (p : Pattern) (t : Text),
    p.here t = true ↔ ∃ a b, t = a ++ b ∧ p.Matches a
  | [], t => ⟨fun _ => ⟨[], t, rfl, .nil⟩, fun _ => rfl⟩
  | a :: p, [] => by
    simp only [here, Bool.false_eq_true, List.nil_eq_append_iff, false_iff]
    rintro ⟨_, _, ⟨rfl, rfl⟩, h⟩
    cases h
  | a :: p, c :: t => by
    rw [here, Bool.and_eq_true, here_iff p t]
    constructor
    · rintro ⟨ha, x, y, rfl, h⟩
      exact ⟨c :: x, y, rfl, .cons ha h⟩
    · rintro ⟨x, y, he, h⟩
      cases h with
      | cons ha h =>
        obtain ⟨rfl, rfl⟩ := List.cons.inj he
        exact ⟨ha, _, y, rfl, h⟩

/-- An expression occurs where a part of the text matches it. -/
theorem occurs_iff (p : Pattern) : ∀ t : Text, p.occurs t = true ↔ ∃ b, b <:+: t ∧ p.Matches b
  | [] => by
    rw [occurs, here_iff]
    constructor
    · rintro ⟨x, y, h, hm⟩
      exact ⟨x, ⟨[], y, h.symm⟩, hm⟩
    · rintro ⟨x, h, hm⟩
      exact ⟨[], [], rfl, List.infix_nil.mp h ▸ hm⟩
  | c :: t => by
    rw [occurs, Bool.or_eq_true, here_iff, occurs_iff p t]
    constructor
    · rintro (⟨x, y, h, hm⟩ | ⟨x, h, hm⟩)
      · exact ⟨x, ⟨[], y, h.symm⟩, hm⟩
      · exact ⟨x, h.trans (List.suffix_cons c t).isInfix, hm⟩
    · rintro ⟨x, h, hm⟩
      rcases List.infix_cons_iff.mp h with ⟨y, h⟩ | h
      · exact Or.inl ⟨x, y, h.symm, hm⟩
      · exact Or.inr ⟨x, h, hm⟩

theorem matches_literal (w t : Text) : (literal w).Matches t ↔ t = w := by
  unfold Matches literal
  rw [List.forall₂_map_left_iff]
  simp [Atom.accepts, List.forall₂_eq_eq_eq, eq_comm]

/-- An expression matches the text that denotes it. -/
theorem matches_regex {t : Text} (h : '\n' ∉ t) : (regex t).Matches t := by
  unfold Matches regex
  rw [List.forall₂_map_left_iff, List.forall₂_same]
  intro c hc
  have hn : c ≠ '\n' := fun e => h (e ▸ hc)
  split <;> simp [Atom.accepts, hn]

/-- A text occurs in another as a part of it. -/
theorem occurs_literal (w t : Text) : (literal w).occurs t = true ↔ w <:+: t := by
  rw [occurs_iff]
  constructor
  · rintro ⟨b, h, hm⟩
    rwa [(matches_literal w b).mp hm] at h
  · exact fun h => ⟨w, h, (matches_literal w w).mpr rfl⟩

/-! ### Piece by piece -/

/-- What is left of an expression that has matched a piece of text, or part
of it; `none` if it has not. -/
def after : Pattern → Text → Option Pattern
  | [], _ => some []
  | p, [] => some p
  | a :: p, c :: t => if a.accepts c then after p t else none

theorem here_append : ∀ (p : Pattern) (w t : Text),
    p.here (w ++ t) = (p.after w).any (·.here t)
  | [], w, t => by simp [after, here]
  | a :: p, [], t => by simp [after]
  | a :: p, c :: w, t => by
    rw [List.cons_append, here, after, here_append p w t]
    by_cases h : a.accepts c = true
    · simp [h]
    · simp [h]

/-- What is left of the matches that start inside a piece. -/
def residuals (p : Pattern) : Text → List Pattern
  | [] => []
  | c :: w => (p.after (c :: w)).toList ++ residuals p w

/-- A match starts inside the first piece or behind it. -/
theorem occurs_append (p : Pattern) : ∀ w t : Text,
    p.occurs (w ++ t) = ((p.residuals w).any (·.here t) || p.occurs t)
  | [], t => by simp [residuals]
  | c :: w, t => by
    have hh := here_append p (c :: w) t
    rw [List.cons_append] at hh ⊢
    rw [occurs, occurs_append p w t, hh, residuals, List.any_append, Bool.or_assoc]
    cases p.after (c :: w) <;> simp

/-! ### `sed s/p/r/g` -/

/-- Replacing, `k` characters of a match being left to skip. -/
def substFrom (p : Pattern) (r : Text) : ℕ → Text → Text
  | _, [] => []
  | k + 1, _ :: t => substFrom p r k t
  | 0, c :: t => if p.here (c :: t) then r ++ substFrom p r (p.length - 1) t else c :: substFrom p r 0 t

/-- `s/p/r/g`, for an expression that does not match the empty text. -/
def subst (p : Pattern) (r : Text) (t : Text) : Text := substFrom p r 0 t

@[simp] theorem subst_nil (p : Pattern) (r : Text) : p.subst r [] = [] := rfl

theorem subst_cons {p : Pattern} {c : Char} {t : Text} (h : p.here (c :: t) = false) (r : Text) :
    p.subst r (c :: t) = c :: p.subst r t := by
  rw [subst, substFrom, h]
  rfl

theorem substFrom_append (p : Pattern) (r : Text) : ∀ w t : Text,
    substFrom p r w.length (w ++ t) = p.subst r t
  | [], _ => rfl
  | _ :: w, t => substFrom_append p r w t

/-- A match at the front is replaced. -/
theorem subst_of_matches {p : Pattern} {w : Text} (h : p.Matches w) (hne : w ≠ []) (r t : Text) :
    p.subst r (w ++ t) = r ++ p.subst r t := by
  have hlen : p.length = w.length := List.Forall₂.length_eq h
  have hhere : p.here (w ++ t) = true := (here_iff _ _).mpr ⟨w, t, rfl, h⟩
  cases w with
  | nil => exact absurd rfl hne
  | cons c w =>
    rw [List.cons_append] at hhere ⊢
    rw [subst, substFrom, if_pos hhere, hlen, List.length_cons, Nat.add_sub_cancel, substFrom_append]

/-- Where nothing matches nothing is replaced. -/
theorem subst_of_not_occurs {p : Pattern} (r : Text) : ∀ {t : Text}, p.occurs t = false → p.subst r t = t
  | [], _ => rfl
  | c :: t, h => by
    rw [occurs, Bool.or_eq_false_iff] at h
    rw [subst_cons h.1, subst_of_not_occurs r h.2]

/-- A front part in which no match starts is kept. -/
theorem subst_append_of_notMem {a : Char} {p : Pattern} (r : Text) : ∀ (w t : Text), a ∉ w →
    subst (.lit a :: p) r (w ++ t) = w ++ subst (.lit a :: p) r t
  | [], _, _ => rfl
  | c :: w, t, h => by
    rw [List.mem_cons, not_or] at h
    have hc : here (.lit a :: p) (c :: (w ++ t)) = false := by
      rw [here, Atom.accepts, decide_eq_false (fun e => h.1 e.symm), Bool.false_and]
    rw [List.cons_append, subst_cons hc, subst_append_of_notMem r w t h.2]
    rfl

/-- No match reaches over a newline. -/
theorem subst_append_newline {p : Pattern} (hp : ∀ a ∈ p, a.accepts '\n' = false) (hne : p ≠ []) (r : Text)
    (t : Text) : ∀ (n : ℕ) (w : Text), w.length ≤ n →
    p.subst r (w ++ '\n' :: t) = p.subst r w ++ '\n' :: p.subst r t := by
  -- a match that starts in front of the newline ends there
  have hin : ∀ (q : Pattern), (∀ a ∈ q, a.accepts '\n' = false) → ∀ w : Text,
      q.here (w ++ '\n' :: t) = q.here w := by
    intro q
    induction q with
    | nil => intro _ w; rfl
    | cons a q ih =>
      intro hq w
      cases w with
      | nil => simp [here, hq a List.mem_cons_self]
      | cons c w => simp [here, ih (fun b hb => hq b (List.mem_cons_of_mem _ hb)) w]
  intro n
  induction n with
  | zero =>
    intro w hw
    rw [List.length_eq_zero_iff.mp (Nat.le_zero.mp hw), List.nil_append, subst_nil, List.nil_append]
    refine subst_cons ?_ r
    have := hin p hp []
    rw [List.nil_append] at this
    rw [this]
    cases p with
    | nil => exact absurd rfl hne
    | cons a p => rfl
  | succ n ih =>
    intro w hw
    cases w with
    | nil => exact ih [] (Nat.zero_le _)
    | cons c w =>
      by_cases hh : p.here (c :: w) = true
      · obtain ⟨m, v, hmv, hm⟩ := (here_iff _ _).mp hh
        have hm0 : m ≠ [] := by
          rintro rfl
          cases hm
          exact hne rfl
        have hv : v.length ≤ n := by
          have := congrArg List.length hmv
          have := List.length_pos_iff.mpr hm0
          simp only [List.length_cons, List.length_append] at *
          omega
        rw [hmv, List.append_assoc, subst_of_matches hm hm0, subst_of_matches hm hm0, ih v hv,
          List.append_assoc]
      · have hh' := hin p hp (c :: w)
        rw [Bool.not_eq_true] at hh
        rw [hh, List.cons_append] at hh'
        rw [List.cons_append, subst_cons hh', subst_cons hh, ih w (by simpa using hw)]
        rfl

/-- `sed` works line by line. -/
theorem subst_intercalate {p : Pattern} (hp : ∀ a ∈ p, a.accepts '\n' = false) (hne : p ≠ []) (r : Text) :
    ∀ ls : List Text, p.subst r (['\n'].intercalate ls) = ['\n'].intercalate (ls.map (p.subst r))
  | [] => rfl
  | [l] => by simp
  | l :: k :: ls => by
    rw [List.intercalate_cons_cons, List.append_assoc, List.singleton_append,
      subst_append_newline hp hne r _ _ l le_rfl, subst_intercalate hp hne r (k :: ls)]
    simp only [List.map_cons, List.intercalate_cons_cons, List.append_assoc, List.singleton_append]

end Pattern

/-! ### `grep` -/

/-- `grep -E '(p₁|...|pₙ)'`: the lines in which one of the expressions occurs. -/
def grep (ps : List Pattern) (t : Text) : Text :=
  unlines ((lines t).filter fun l => ps.any (·.occurs l))

/-- `grep -v -E '(p₁|...|pₙ)'`: the other lines. -/
def grepV (ps : List Pattern) (t : Text) : Text :=
  unlines ((lines t).filter fun l => !ps.any (·.occurs l))

theorem grep_unlines (ps : List Pattern) (ls : List Text) (h : ∀ l ∈ ls, '\n' ∉ l) :
    grep ps (unlines ls) = unlines (ls.filter fun l => ps.any (·.occurs l)) := by
  rw [grep, lines_unlines ls h]

theorem grepV_unlines (ps : List Pattern) (ls : List Text) (h : ∀ l ∈ ls, '\n' ∉ l) :
    grepV ps (unlines ls) = unlines (ls.filter fun l => !ps.any (·.occurs l)) := by
  rw [grepV, lines_unlines ls h]

end OpsScripts
