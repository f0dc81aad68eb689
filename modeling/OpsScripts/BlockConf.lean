/-
# Configuration files of blocks

One statement a line: words, or words and an opening brace, which begins a
block of statements that a line with a closing brace ends. A word that begins
with `#` or `!` begins a comment. The reader keeps the blocks that are open on
a stack; a brace that closes nothing, or a block that is not closed, is an
error.

What is written out is read back (`parseLines_renderAll`), blank lines
aside.

Key definitions: `Item`, `parseConf`, `renderAll`, `field?`.
Key theorem: `parseLines_renderAll`.
-/
import OpsScripts.Text

namespace OpsScripts

/-- A statement: its words, or a block under some words. -/
inductive Item
  | entry (ws : List Text)
  | block (head : List Text) (body : List Item)

namespace Item

def opener : Text := ['{']

def closer : Text := ['}']

/-- The words of a line in front of a comment. -/
def uncomment (ws : List Text) : List Text := ws.takeWhile fun w => w.head? ≠ some '#' && w.head? ≠ some '!'

/-- The end of the innermost block. -/
def closeBlock : List (List Text × List Item) → List Item → Option (List (List Text × List Item) × List Item)
  | [], _ => none
  | (head, before) :: open_, done => some (open_, before ++ [.block head done])

/-- Reads lines, given as words. `open_` are the blocks that are open, the
innermost first, each with the statements in front of it; `done` are the
statements of the innermost one so far. -/
def parseLines : List (List Text × List Item) → List Item → List (List Text) → Option (List Item)
  | open_, done, [] => if open_.isEmpty then some done else none
  | open_, done, ws :: rest =>
    if ws = [] then parseLines open_ done rest
    else if ws = [closer] then (closeBlock open_ done).bind fun s => parseLines s.1 s.2 rest
    else if ws.getLast? = some opener then parseLines ((ws.dropLast, done) :: open_) [] rest
    else parseLines open_ (done ++ [.entry ws]) rest

/-- The statements of a configuration file. -/
def parseConf (t : Text) : Option (List Item) :=
  parseLines [] [] ((t.splitOn '\n').map fun l => uncomment (words l))

mutual

/-- The lines of a statement. -/
def render : Item → List (List Text)
  | entry ws => [ws]
  | block head body => (head ++ [opener]) :: (renderAll body ++ [[closer]])

/-- The lines of statements. -/
def renderAll : List Item → List (List Text)
  | [] => []
  | i :: is => render i ++ renderAll is

end

mutual

/-- No entry reads as the begin or the end of a block. -/
def Proper : Item → Prop
  | entry ws => ws ≠ [] ∧ ws ≠ [closer] ∧ ws.getLast? ≠ some opener
  | block _ body => ProperAll body

def ProperAll : List Item → Prop
  | [] => True
  | i :: is => Proper i ∧ ProperAll is

end

/-- A blank line is skipped. -/
theorem parseLines_blank (st : List (List Text × List Item)) (done : List Item) (rest : List (List Text)) :
    parseLines st done ([] :: rest) = parseLines st done rest := by
  rw [parseLines, if_pos rfl]

theorem parseLines_entry {ws : List Text} (h : Proper (.entry ws)) (st : List (List Text × List Item))
    (done : List Item) (rest : List (List Text)) :
    parseLines st done (ws :: rest) = parseLines st (done ++ [.entry ws]) rest := by
  rw [Proper] at h
  rw [parseLines, if_neg h.1, if_neg h.2.1, if_neg h.2.2]

theorem parseLines_open (head : List Text) (st : List (List Text × List Item)) (done : List Item)
    (rest : List (List Text)) :
    parseLines st done ((head ++ [opener]) :: rest) = parseLines ((head, done) :: st) [] rest := by
  have hne : head ++ [opener] ≠ [closer] := by
    intro h
    have := congrArg List.getLast? h
    rw [List.getLast?_concat] at this
    exact absurd this (by decide)
  rw [parseLines, if_neg (by simp), if_neg hne, if_pos (List.getLast?_concat ..), List.dropLast_concat]

theorem parseLines_close (head : List Text) (before : List Item) (st : List (List Text × List Item))
    (done : List Item) (rest : List (List Text)) :
    parseLines ((head, before) :: st) done ([closer] :: rest) = parseLines st (before ++ [.block head done]) rest := by
  rw [parseLines, if_neg (by simp), if_pos rfl, closeBlock, Option.bind_some]

mutual

/-- A statement is read back, wherever it stands. -/
theorem parseLines_render : ∀ (i : Item), Proper i → ∀ (st : List (List Text × List Item)) (done : List Item)
    (rest : List (List Text)), parseLines st done (render i ++ rest) = parseLines st (done ++ [i]) rest
  | .entry ws, h, st, done, rest => by
    rw [render, List.singleton_append, parseLines_entry h]
  | .block head body, h, st, done, rest => by
    rw [Proper] at h
    rw [render, List.cons_append, parseLines_open, List.append_assoc, parseLines_renderAll body h, List.nil_append,
      List.singleton_append, parseLines_close]

/-- **What is written out is read back.** -/
theorem parseLines_renderAll : ∀ (is : List Item), ProperAll is → ∀ (st : List (List Text × List Item))
    (done : List Item) (rest : List (List Text)),
    parseLines st done (renderAll is ++ rest) = parseLines st (done ++ is) rest
  | [], _, st, done, rest => by rw [renderAll, List.nil_append, List.append_nil]
  | i :: is, h, st, done, rest => by
    rw [ProperAll] at h
    rw [renderAll, List.append_assoc, parseLines_render i h.1, parseLines_renderAll is h.2, List.append_assoc,
      List.singleton_append]

end

/-- The words behind `name` in the first entry that begins with it. -/
def field? (name : Text) : List Item → Option (List Text)
  | [] => none
  | .entry (w :: ws) :: is => if w = name then some ws else field? name is
  | _ :: is => field? name is

/-- The entries of the first block under `name`. -/
def blockEntries (name : Text) : List Item → List (List Text)
  | [] => []
  | .block head body :: is =>
    if head = [name] then body.filterMap fun
      | .entry ws => some ws
      | .block _ _ => none
    else blockEntries name is
  | _ :: is => blockEntries name is

end Item

end OpsScripts
