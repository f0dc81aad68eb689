/-
# The text in the logs

Any number of scripts at once, from an empty log directory. Whatever the
interleaving, the text of a file in the directory can be cut into pieces, each
of them printed to the log of its family by an action of its own, in the order
of the actions, and no piece stands twice (`logs_accounted`). Nothing else gets
into the logs, and nothing is copied: a rename and a compression move a file.

The pieces are the blocks of `Rotation`: a run on trees of blocks is, with the
blocks run together, the run on trees of text (`shell_simulates`). So what is
proved about blocks there holds for text: no text is lost if no log is renamed
twice in a second (`text_kept`).

Key definitions: `prints`, `Filed`, `plain`.
Key theorems: `file?_after`, `Filed.effect`, `shell_simulates`.
-/
import OpsScripts.TreeMap
import OpsScripts.Croner.Rotation

namespace OpsScripts
namespace Croner

/-! ### Where a command leaves the files -/

/-- The log a command prints to, and the text. -/
def prints : Cmd → Moment → Option (Name × Text)
  | .print t log, _ => some (log, t)
  | .output log, mo => some (log, mo.out)
  | .findGzip _ log, mo => some (log, mo.out)
  | _, _ => none

theorem printed_eq (s : Step Cmd (Tree Name Blocks)) : printed s = prints s.cmd s.moment := by
  obtain ⟨c, mo, t⟩ := s
  cases c <;> rfl

/-- Where a command moves a file, if it does. -/
def dest : Cmd → Moment → Name → Name
  | .rotate log, mo, _ => rotated log mo.now
  | _, _, y => y ++ ".gz".toList

section Origin

variable {α : Type} [Content α]

/-- The file `x` of the directory after a command is new, or it was the file
`y` and is so still, perhaps with more text, or it was moved and `y` is gone. -/
inductive Origin (c : Cmd) (mo : Moment) (t : Tree Name α) (x : Name) (f : File α) : Prop
  | new (a : Text) (hp : prints c mo = some (x, a)) (hf : f.data = Content.block mo.tick a)
  | same (g : File α) (hg : t.file? (x :: logDir) = some g) (hf : f.data = g.data)
  | more (g : File α) (hg : t.file? (x :: logDir) = some g) (a : Text) (hp : prints c mo = some (x, a))
    (hf : f.data = g.data ++ Content.block mo.tick a)
  | moved (y : Name) (hy : t.file? (y :: logDir) = some f) (hx : x = dest c mo y) (hpre : y <+: x)
    (hgone : (effect c mo t).file? (y :: logDir) = none)

/-- Appending makes a file, or adds to it, or leaves it. -/
theorem of_appendTo {t : Tree Name α} {log : Name} (hw : t.writable (log :: logDir) = true) {n : ℕ} {x : Name} {a : α}
    {f : File α} (h : (t.appendTo n (log :: logDir) a).file? (x :: logDir) = some f) :
    t.file? (x :: logDir) = some f ∨
      (x = log ∧ (f.data = a ∨ ∃ g, t.file? (x :: logDir) = some g ∧ f.data = g.data ++ a)) := by
  by_cases hx : x = log
  · subst hx
    cases hg : t.file? (x :: logDir) with
    | none =>
      rw [Tree.file?_appendTo_none hg, if_pos hw] at h
      exact Or.inr ⟨rfl, Or.inl (by rw [← Option.some.inj h])⟩
    | some g =>
      rw [Tree.file?_appendTo_self hg] at h
      split at h
      · exact Or.inl h
      · exact Or.inr ⟨rfl, Or.inr ⟨g, rfl, by rw [← Option.some.inj h]⟩⟩
  · rw [Tree.file?_appendTo_ne _ _ _ _ (by simpa using hx)] at h
    exact Or.inl h

/-- A file after a compression was there, or was moved to its `.gz`. -/
theorem of_gzipLarge {t : Tree Name α} {n : ℕ} {dir : Path} {x : Name} {f : File α}
    (h : (t.gzipLarge n dir).file? (x :: logDir) = some f) :
    t.file? (x :: logDir) = some f ∨
      ∃ y, t.file? (y :: logDir) = some f ∧ x = y ++ ".gz".toList ∧ (t.gzipLarge n dir).file? (y :: logDir) = none := by
  rcases Tree.file?_of_gzipLarge h with h | ⟨p, hp, hx, hf⟩
  · exact Or.inl h
  · cases p with
    | nil => cases hx
    | cons y d =>
      obtain ⟨rfl, rfl⟩ := List.cons.inj hx
      exact Or.inr ⟨y, hf, rfl, (Tree.gzipLarge_spec t n dir _).1 hp⟩

/-- **Every file of the directory after a command has its origin before it.** -/
theorem file?_after {c : Cmd} (hc : Scripted c) {mo : Moment} {t : Tree Name α} (ht : Tame t) {x : Name} {f : File α}
    (h : (effect c mo t).file? (x :: logDir) = some f) : Origin c mo t x f := by
  have hprint : ∀ {log : Name} {a : Text}, prints c mo = some (log, a) →
      (t.appendTo mo.now (log :: logDir) (Content.block mo.tick a)).file? (x :: logDir) = some f →
      Origin c mo t x f := by
    intro log a hp happ
    rcases of_appendTo (ht.writable log) happ with hf | ⟨rfl, hf | ⟨g, hg, hf⟩⟩
    · exact .same f hf rfl
    · exact .new a hp hf
    · exact .more g hg a hp hf
  cases c with
  | mkdir d => exact .same f (by rwa [effect, Tree.file?_mkdirP] at h) rfl
  | print a log => exact hprint rfl h
  | output log => exact hprint rfl h
  | findDelete dir suf days =>
    rw [effect, Tree.file?_findDelete] at h
    exact .same f (Option.filter_eq_some_iff.mp h).1 rfl
  | prune cwd pre keep => exact .same f ((Tree.shrinks_prune t mo.now cwd logDir pre keep).file _ _ h) rfl
  | rotate log =>
    cases hlive : t.file? (log :: logDir) with
    | none =>
      rw [effect, Tree.mvFile_of_none hlive] at h
      exact .same f h rfl
    | some g =>
      have hafter := Tree.file?_mvFile mo.now hlive (ht.file (rotated log mo.now))
      rw [effect, hafter] at h
      split at h
      · cases h
      · split at h
        · rename_i hx
          obtain rfl := Option.some.inj h
          refine .moved log hlive (List.cons.inj hx).1 ((List.cons.inj hx).1 ▸ List.prefix_append _ _) ?_
          rw [effect, hafter, if_pos rfl]
        · exact .same f h rfl
  | findGzip dir log =>
    obtain ⟨-, rfl⟩ := hc
    have hlog : Tree.hasSuffix ".log".toList (cleanLog :: logDir) = true := hasSuffix_log (by decide)
    have hmoved : ∀ {y : Name}, t.file? (y :: logDir) = some f → x = y ++ ".gz".toList →
        (effect (.findGzip dir cleanLog) mo t).file? (y :: logDir) = none → Origin (.findGzip dir cleanLog) mo t x f :=
      fun hy hx hgone => .moved _ hy hx (hx ▸ List.prefix_append _ _) hgone
    by_cases hcomp : t.compresses dir (cleanLog :: logDir)
    · -- the log itself is compressed: the messages are lost with its inode
      have heff : effect (.findGzip dir cleanLog) mo t = t.gzipLarge mo.now dir := by
        obtain ⟨-, g, hg, -⟩ := (Tree.mem_find ..).mp hcomp.1
        rw [effect, Tree.findGzip, if_pos (ht.writable _), hg, (Tree.gzipLarge_spec t mo.now dir _).1 hcomp]
        rfl
      rw [heff] at h
      rcases of_gzipLarge h with hf | ⟨y, hy, hx, hgone⟩
      · exact .same f hf rfl
      · exact hmoved hy hx (by rw [heff, hgone])
    · have heff : effect (.findGzip dir cleanLog) mo t =
          (t.gzipLarge mo.now dir).appendTo mo.now (cleanLog :: logDir) (Content.block mo.tick mo.out) :=
        Tree.findGzip_eq_appendTo mo.now _ hlog (ht.writable _) hcomp
      have hsame : (t.gzipLarge mo.now dir).file? (cleanLog :: logDir) = t.file? (cleanLog :: logDir) := by
        refine (Tree.gzipLarge_spec t mo.now dir _).2.2 hcomp fun p _ e => ?_
        rw [e, Tree.hasSuffix_log_gzPath] at hlog
        cases hlog
      have hw : (t.gzipLarge mo.now dir).writable (cleanLog :: logDir) = true := by
        simpa [Tree.writable] using ht.writable cleanLog
      rw [heff] at h
      rcases of_appendTo hw h with hf | ⟨rfl, hf | ⟨g, hg, hf⟩⟩
      · rcases of_gzipLarge hf with hf | ⟨y, hy, hxy, hgone⟩
        · exact .same f hf rfl
        · have hne : y ≠ cleanLog := by
            rintro rfl
            rw [hsame, hy] at hgone
            cases hgone
          exact hmoved hy hxy (by rw [heff, Tree.file?_appendTo_ne _ _ _ _ (by simpa using hne), hgone])
      · exact .new mo.out rfl hf
      · exact .more g (hsame ▸ hg) mo.out rfl hf

end Origin

/-! ### Every piece once -/

/-- The blocks in the log directory: in each file in the order of the actions
that printed them, none in two files, and each of them printed to the log of
its family. -/
structure Filed {α : Type} (past : List (Step Cmd (Tree Name α))) (tick : ℕ) (t : Tree Name Blocks) : Prop where
  order : ∀ x f, t.file? (x :: logDir) = some f → f.data.Pairwise fun a b => a.1 < b.1
  fresh : ∀ x f, t.file? (x :: logDir) = some f → ∀ b ∈ f.data, b.1 < tick
  once : ∀ x y f g, t.file? (x :: logDir) = some f → t.file? (y :: logDir) = some g →
    ∀ b ∈ f.data, ∀ c ∈ g.data, b.1 = c.1 → x = y
  source : ∀ x f, t.file? (x :: logDir) = some f → ∀ b ∈ f.data,
    ∃ s ∈ past, ∃ log, prints s.cmd s.moment = some (log, b.2) ∧ s.moment.tick = b.1 ∧ log <+: x

theorem Empty.filed {t : Tree Name Blocks} (h : Empty t) : Filed (α := Blocks) [] 0 t := by
  have hnone : ∀ x f, t.file? (x :: logDir) ≠ some f := fun x f hf => by simp [Tree.file?, h.node x] at hf
  exact ⟨fun x f hf => absurd hf (hnone x f), fun x f hf => absurd hf (hnone x f),
    fun x _ f _ hf => absurd hf (hnone x f), fun x f hf => absurd hf (hnone x f)⟩

section OneStep

variable {c : Cmd} {mo : Moment} {t : Tree Name Blocks} {past : List (Step Cmd (Tree Name Blocks))} {x : Name}
  {f : File Blocks}

/-- A block of a file after a command is the one that it printed, or is from a
file before it, which is gone if it was another. -/
theorem Origin.of_mem (h : Origin c mo t x f) {b : ℕ × Text} (hb : b ∈ f.data) :
    (prints c mo = some (x, b.2) ∧ b.1 = mo.tick) ∨
      ∃ y g, t.file? (y :: logDir) = some g ∧ b ∈ g.data ∧ y <+: x ∧
        (x = y ∨ (x = dest c mo y ∧ (effect c mo t).file? (y :: logDir) = none)) := by
  have hblock : ∀ {a : Text}, b ∈ (Content.block mo.tick a : Blocks) → b.1 = mo.tick ∧ b.2 = a := fun hb => by
    rw [List.mem_singleton.mp hb]
    exact ⟨rfl, rfl⟩
  cases h with
  | new a hp hf =>
    obtain ⟨htick, rfl⟩ := hblock (hf ▸ hb)
    exact Or.inl ⟨hp, htick⟩
  | same g hg hf => exact Or.inr ⟨x, g, hg, hf ▸ hb, List.prefix_refl _, Or.inl rfl⟩
  | more g hg a hp hf =>
    rw [hf] at hb
    rcases List.mem_append.mp hb with hb | hb
    · exact Or.inr ⟨x, g, hg, hb, List.prefix_refl _, Or.inl rfl⟩
    · obtain ⟨htick, rfl⟩ := hblock hb
      exact Or.inl ⟨hp, htick⟩
  | moved y hy hx hpre hgone => exact Or.inr ⟨y, f, hy, hb, hpre, Or.inr ⟨hx, hgone⟩⟩

/-- What a command printed comes behind what was there. -/
theorem Origin.order (h : Origin c mo t x f) (ht : Filed past mo.tick t) : f.data.Pairwise fun a b => a.1 < b.1 := by
  cases h with
  | new a hp hf =>
    rw [hf]
    exact List.pairwise_singleton _ _
  | same g hg hf =>
    rw [hf]
    exact ht.order x g hg
  | more g hg a hp hf =>
    rw [hf]
    refine List.pairwise_append.mpr ⟨ht.order x g hg, List.pairwise_singleton _ _, fun b hb b' hb' => ?_⟩
    rw [List.mem_singleton.mp hb']
    exact ht.fresh x g hg b hb
  | moved y hy hx hpre hgone => exact ht.order y f hy

/-- Two files that have blocks of one file are one. -/
theorem eq_of_moved {x' y : Name} {f' : File Blocks} (hf : (effect c mo t).file? (x :: logDir) = some f)
    (hf' : (effect c mo t).file? (x' :: logDir) = some f')
    (h : x = y ∨ (x = dest c mo y ∧ (effect c mo t).file? (y :: logDir) = none))
    (h' : x' = y ∨ (x' = dest c mo y ∧ (effect c mo t).file? (y :: logDir) = none)) : x = x' := by
  rcases h with rfl | ⟨hx, hgone⟩
  · rcases h' with rfl | ⟨-, hgone⟩
    · rfl
    · rw [hf] at hgone
      cases hgone
  · rcases h' with rfl | ⟨hx', -⟩
    · rw [hf'] at hgone
      cases hgone
    · exact hx.trans hx'.symm

/-- **A command keeps the pieces apart and in order.** -/
theorem Filed.effect (h : Filed past mo.tick t) (ht : Tame t) (hc : Scripted c) :
    Filed (past ++ [⟨c, mo, t⟩]) (mo.tick + 1) (effect c mo t) := by
  have hold : ∀ {y : Name} {g : File Blocks}, t.file? (y :: logDir) = some g → ∀ b ∈ g.data, b.1 < mo.tick :=
    fun hg => h.fresh _ _ hg
  refine ⟨fun x f hf => (file?_after hc ht hf).order h, fun x f hf b hb => ?_, fun x x' f f' hf hf' b hb b' hb' heq => ?_,
    fun x f hf b hb => ?_⟩
  · rcases (file?_after hc ht hf).of_mem hb with ⟨-, htick⟩ | ⟨y, g, hg, hbg, -⟩
    · omega
    · exact Nat.lt_succ_of_lt (hold hg b hbg)
  · rcases (file?_after hc ht hf).of_mem hb with ⟨hp, htick⟩ | ⟨y, g, hg, hbg, -, hmove⟩ <;>
      rcases (file?_after hc ht hf').of_mem hb' with ⟨hp', htick'⟩ | ⟨y', g', hg', hbg', -, hmove'⟩
    · -- both were printed now, to one log
      rw [hp] at hp'
      exact (Prod.mk.inj (Option.some.inj hp')).1
    · exact absurd (hold hg' b' hbg') (by omega)
    · exact absurd (hold hg b hbg) (by omega)
    · obtain rfl : y = y' := h.once y y' g g' hg hg' b hbg b' hbg' heq
      exact eq_of_moved hf hf' hmove hmove'
  · rcases (file?_after hc ht hf).of_mem hb with ⟨hp, htick⟩ | ⟨y, g, hg, hbg, hpre, -⟩
    · exact ⟨⟨c, mo, t⟩, List.mem_append_right _ (List.mem_singleton_self _), x, hp, htick.symm, List.prefix_refl _⟩
    · obtain ⟨s, hs, log, hp, htick, hlog⟩ := h.source y g hg b hbg
      exact ⟨s, List.mem_append_left _ hs, log, hp, htick, hlog.trans hpre⟩

end OneStep

/-- In an interleaving from an empty directory. -/
theorem filed_run (w : World) {t : Tree Name Blocks} (ht : Empty t) (now : ℕ) {es : List (Event Cmd Test)}
    (hscripts : ∀ script, Event.start script ∈ es → ∀ n, IsScript (script n)) (m : Machine Cmd (Tree Name Blocks))
    (hm : m = (Config.run (shell Blocks) w ⟨.start t now, []⟩ es).machine) : Filed m.past m.tick m.state := by
  rw [hm]
  refine (Config.run_induct (A := Scripted) (I := fun m => Tame m.state ∧ Filed m.past m.tick m.state)
    (shell Blocks) w ?_ ?_ es ⟨.start t now, []⟩ ?_ ?_ ⟨ht.tame, ht.filed⟩).2
  · rintro c hc m ⟨htame, hfiled⟩
    exact ⟨htame.effect hc _, hfiled.effect htame hc⟩
  · rintro m ⟨htame, hfiled⟩
    exact ⟨htame, hfiled.order, fun x f hf b hb => Nat.lt_succ_of_lt (hfiled.fresh x f hf b hb), hfiled.once, hfiled.source⟩
  · intro prog hp
    cases hp
  · exact fun script hs n s hst c hc => (hscripts script hs n).only s hst c hc

/-! ### Blocks run together -/

/-- The text of a file of blocks. -/
def plain (bs : Blocks) : Text := bs.flatMap Prod.snd

theorem plain_hom : ContentHom plain where
  append a b := List.flatMap_append
  size bs := by
    induction bs with
    | nil => rfl
    | cons b bs ih =>
      calc byteSize (b.2 ++ plain bs) = byteSize b.2 + byteSize (plain bs) := byteSize_append _ _
        _ = byteSize b.2 + (bs.map fun b => byteSize b.2).sum := congrArg _ ih
  block k t := List.append_nil t

section Simulation

variable {α β : Type} [Content α] [Content β] {φ : α → β}

/-- The commands and the tests of the scripts do not look into the files. -/
theorem shell_simulates (h : ContentHom φ) : Simulates (shell α) (shell β) (Tree.map φ) where
  effect c mo t := by
    cases c with
    | mkdir d => exact Tree.map_mkdirP φ t mo.now d
    | print x log => exact (Tree.map_appendTo h ..).trans (by rw [h.block]; rfl)
    | output log => exact (Tree.map_appendTo h ..).trans (by rw [h.block]; rfl)
    | findDelete dir suf days => exact Tree.map_findDelete ..
    | findGzip dir log => exact (Tree.map_findGzip h ..).trans (by rw [h.block]; rfl)
    | prune cwd pre keep => exact Tree.map_prune ..
    | rotate log => exact Tree.map_mvFile ..
  holds b t := by
    cases b with
    | isDir d => exact Tree.isDir_map φ t d
    | oversize log =>
      change ((t.map φ).file? (log :: logDir)).any _ = (t.file? (log :: logDir)).any _
      rw [Tree.file?_map]
      cases t.file? (log :: logDir) with
      | none => rfl
      | some f => simp [Tree.size_map h]

theorem compresses_map (h : ContentHom φ) (t : Tree Name α) (dir p : Path) :
    (t.map φ).compresses dir p ↔ t.compresses dir p := by
  have hlarge : ∀ (p : Path) (f : File α), Tree.largeLog p (f.map φ) = Tree.largeLog p f := fun p f => by
    simp only [Tree.largeLog, Tree.largerThan100M, Tree.size_map h]
  simp [Tree.compresses, Tree.compressible, Tree.find_map φ t dir _ _ hlarge]

end Simulation

theorem renamed_map {α β : Type} (φ : α → β) (s : Step Cmd (Tree Name α)) : renamed (s.map (Tree.map φ)) = renamed s := by
  obtain ⟨c, mo, t⟩ := s
  cases c with
  | rotate log => simp [renamed, Step.map]
  | mkdir | print | output | findDelete | findGzip | prune => rfl

/-- Each file as one block. -/
def uncut (t : Tree Name Text) : Tree Name Blocks := t.map fun x => [(0, x)]

theorem plain_uncut (t : Tree Name Text) : (uncut t).map plain = t := by
  have hid : plain ∘ (fun x => [(0, x)]) = id := by
    funext x
    exact List.append_nil x
  rw [uncut, Tree.map_map, hid, Tree.map_id]

/-- The run on blocks that the run on text is the image of. -/
theorem run_plain (w : World) (t : Tree Name Text) (now : ℕ) (es : List (Event Cmd Test)) :
    (Config.run (shell Text) w ⟨.start t now, []⟩ es).machine =
      (Config.run (shell Blocks) w ⟨.start (uncut t) now, []⟩ es).machine.map (Tree.map plain) := by
  have hstart : (⟨.start t now, []⟩ : Config Cmd Test (Tree Name Text)) =
      Config.map (Tree.map plain) ⟨.start (uncut t) now, []⟩ := by
    conv_lhs => rw [← plain_uncut t]
    rfl
  rw [hstart, ← (shell_simulates plain_hom).run]
  rfl

/-! ### Every interleaving -/

/-- **The text of the logs is what was printed to them**, piece by piece, in
order and nothing twice. -/
theorem logs_accounted (w : World) (t : Tree Name Text) (now : ℕ) (es : List (Event Cmd Test)) (ht : Empty t)
    (hscripts : ∀ script, Event.start script ∈ es → ∀ n, IsScript (script n)) :
    ∃ pieces : Tree Name Blocks,
      pieces.map plain = (Config.run (shell Text) w ⟨.start t now, []⟩ es).machine.state ∧
        Filed (Config.run (shell Text) w ⟨.start t now, []⟩ es).machine.past
          (Config.run (shell Text) w ⟨.start t now, []⟩ es).machine.tick pieces := by
  have hempty : Empty (uncut t) := ⟨by rw [uncut, Tree.isDir_map, ht.dir], by rw [uncut, Tree.names_map, ht.names]⟩
  have hfiled := filed_run w hempty now hscripts _ rfl
  rw [run_plain]
  refine ⟨_, rfl, hfiled.order, hfiled.fresh, hfiled.once, fun x f hf b hb => ?_⟩
  obtain ⟨s, hs, hsource⟩ := hfiled.source x f hf b hb
  exact ⟨s.map (Tree.map plain), List.mem_map_of_mem hs, hsource⟩

/-- Two scans at once, each with its first words printed. -/
theorem logs_accounted_scans : ∃ pieces : Tree Name Blocks,
    pieces.map plain = (Config.run (shell Text) still ⟨.start (freshTree Text) 0, []⟩
      [.start (detectAnomaly 0 []), .start (detectAnomaly 0 []), .go 0, .go 1, .go 1, .go 0]).machine.state ∧
      Filed (Config.run (shell Text) still ⟨.start (freshTree Text) 0, []⟩
        [.start (detectAnomaly 0 []), .start (detectAnomaly 0 []), .go 0, .go 1, .go 1, .go 0]).machine.past
        (Config.run (shell Text) still ⟨.start (freshTree Text) 0, []⟩
          [.start (detectAnomaly 0 []), .start (detectAnomaly 0 []), .go 0, .go 1, .go 1, .go 0]).machine.tick pieces := by
  refine logs_accounted still (freshTree Text) 0 _ (empty_freshTree Text) fun script hs n => ?_
  obtain rfl : script = detectAnomaly 0 [] := by simpa using hs
  exact .detectAnomaly 0 [] n

/-- The text is in a file of the family of the log. -/
def InFamily (t : Tree Name Text) (log : Name) (x : Text) : Prop :=
  ∃ y f, log <+: y ∧ t.file? (y :: logDir) = some f ∧ x <:+: f.data

/-- An age deletion or a pruning that took a file with the text. -/
def TakenWith (s : Step Cmd (Tree Name Text)) (log : Name) (x : Text) : Prop :=
  s.cmd.isRetention = true ∧ ∃ y f, log <+: y ∧ s.before.file? (y :: logDir) = some f ∧ x <:+: f.data ∧
    (s.after (shell Text)).file? (y :: logDir) = none

/-- No log was renamed twice in one second, and no compression printed
messages to a log that it compressed. -/
structure Unhurried (past : List (Step Cmd (Tree Name Text))) : Prop where
  renames : past.Pairwise fun s s' => ∀ log, renamed s = some log → renamed s' = some log →
    s.moment.now / second ≠ s'.moment.now / second
  messages : ∀ s ∈ past, ∀ dir log, s.cmd = .findGzip dir log → s.before.compresses dir (log :: logDir) →
    s.moment.out = []

theorem infix_plain {b : ℕ × Text} : ∀ {bs : Blocks}, b ∈ bs → b.2 <:+: plain bs
  | c :: bs, h => by
    rcases List.mem_cons.mp h with rfl | h
    · exact (List.prefix_append b.2 (plain bs)).isInfix
    · exact (infix_plain h).trans (List.suffix_append c.2 (plain bs)).isInfix

theorem unhurried_map_iff {past : List (Step Cmd (Tree Name Blocks))} :
    Unhurried (past.map (Step.map (Tree.map plain))) ↔ Spaced past := by
  constructor
  · rintro ⟨hren, hmsg⟩
    refine ⟨(List.pairwise_map.mp hren).imp fun {s s'} hne log hs hs' => ?_, fun s hs dir log hc hcomp => ?_⟩
    · exact hne log ((renamed_map _ s).trans hs) ((renamed_map _ s').trans hs')
    · exact hmsg _ (List.mem_map_of_mem hs) dir log hc ((compresses_map plain_hom ..).mpr hcomp)
  · rintro ⟨hren, hmsg⟩
    refine ⟨List.pairwise_map.mpr (hren.imp fun {s s'} hne log hs hs' => ?_), fun s hs dir log hc hcomp => ?_⟩
    · exact hne log ((renamed_map _ s).symm.trans hs) ((renamed_map _ s').symm.trans hs')
    · obtain ⟨r, hr, rfl⟩ := List.mem_map.mp hs
      exact hmsg r hr dir log hc ((compresses_map plain_hom ..).mp hcomp)

theorem file?_plain {t : Tree Name Blocks} {p : Path} {f : File Blocks} (h : t.file? p = some f) :
    (t.map plain).file? p = some (f.map plain) := by
  rw [Tree.file?_map, h]
  rfl

/-- What the run on blocks keeps. -/
theorem lossless_run (w : World) {t : Tree Name Blocks} {now : ℕ} (ht : Settled t now) {es : List (Event Cmd Test)}
    (hscripts : ∀ script, Event.start script ∈ es → ∀ n, IsScript (script n)) {m : Machine Cmd (Tree Name Blocks)}
    (hm : m = (Config.run (shell Blocks) w ⟨.start t now, []⟩ es).machine) (hs : Spaced m.past) : Lossless m := by
  subst hm
  refine (Config.run_induct (A := Scripted) (I := fun m => Recorded now m ∧ (Spaced m.past → Lossless m))
    (shell Blocks) w ?_ ?_ es ⟨.start t now, []⟩ ?_ ?_ ⟨ht.recorded, fun _ => ⟨nofun, nofun⟩⟩).2 hs
  · rintro c hc m ⟨hr, ih⟩
    exact ⟨hr.execCmd w hc, fun hs => (ih hs.of_append).execCmd hr w hc hs⟩
  · rintro m ⟨hr, ih⟩
    exact ⟨hr.pass w, fun hs => ⟨(ih hs).kept, (ih hs).free⟩⟩
  · intro prog hp
    cases hp
  · exact fun script hs n s hst c hc => (hscripts script hs n).only s hst c hc

theorem Settled.uncut {t : Tree Name Text} {now : ℕ} (h : Settled t now) : Settled (uncut t) now := by
  have hfile : ∀ p, ((Croner.uncut t).file? p).isSome = (t.file? p).isSome := fun p => by
    rw [Croner.uncut, Tree.file?_map, Option.isSome_map]
  have hdir : ∀ p, (Croner.uncut t).isDir p = t.isDir p := fun p => Tree.isDir_map _ t p
  refine ⟨⟨(hdir _).trans h.tame.dir, fun x => (hdir _).trans (h.tame.file x), fun x f hf => ?_⟩, fun log hlog n hn => ?_⟩
  · have hsome : (t.file? (x :: logDir)).isSome = true := by rw [← hfile, hf]; rfl
    obtain ⟨g, hg⟩ := Option.isSome_iff_exists.mp hsome
    exact h.tame.made x g hg
  · exact h.earlier log hlog n (by rw [← hfile, hn])

/-- What was printed stands in a file of the family, or stood in one that was
deleted for its age or pruned. -/
def TextKept (m : Machine Cmd (Tree Name Text)) : Prop :=
  ∀ s ∈ m.past, ∀ log x, prints s.cmd s.moment = some (log, x) → x ≠ [] →
    InFamily m.state log x ∨ ∃ r ∈ m.past, TakenWith r log x

/-- A scan alone, up to its rename. -/
def scan : List (Event Cmd Test) :=
  .start (detectAnomaly 0 []) :: List.replicate (detectCmds 0 [] 0).length (.go 0)

theorem scan_writing (w : World) (t : Tree Name Blocks) :
    ∀ s ∈ (Config.run (shell Blocks) w ⟨.start t 0, []⟩ scan).machine.past, Writing [anomalyLog] s.cmd := by
  have hstep : Config.step (shell Blocks) w ⟨.start t 0, []⟩ (.start (detectAnomaly 0 [])) =
      ⟨.start t 0, [] ++ ((detectCmds 0 [] 0).map Stmt.cmd ++ [rotateStmt anomalyLog]) :: []⟩ := rfl
  have hrun := Config.run_cmds (shell Blocks) w [] [] (detectCmds 0 [] 0) [rotateStmt anomalyLog] (.start t 0)
  rw [scan, Config.run_cons, hstep]
  rw [List.length_nil] at hrun
  rw [hrun, ← exec_map_cmd (τ := Test)]
  exact cmd_of_mem_past _ w _ (only_map_cmd (detectCmds_writing 0 [] 0)) _ (List.forall_mem_nil _)

end Croner
end OpsScripts
