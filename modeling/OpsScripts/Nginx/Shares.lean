/-
# Who gets the requests

A peer that has failed `max_fails` times gets at most one request in
`fail_timeout`, until one of its requests succeeds (`resting_gaps`). And if
nothing fails, the peers get their requests by weight: with weights that add
up to `W`, a peer of weight `w` has had less than one request more than
`w / W` of them at any time, and exactly `m * w` of them after `m * W`
(`shares_run`), whatever the order in which the requests come and go.

Key definitions: `Calm`, `Failing`, `Even`.
Key theorems: `Failing.step`, `Even.step`.
-/
import OpsScripts.Nginx.Visits

namespace OpsScripts
namespace Nginx

/-! ### Peers that fail -/

/-- A request that has the peer at `i` of the group `k` ends without a
failure. -/
def System.succeeds (s : System) (k i : ℕ) : Event → Bool
  | .release r failed _ => !failed && (s.requests[r]?).any fun q => q.has k i
  | _ => false

/-- No request succeeds at the peer. -/
def Calm (k i : ℕ) : System → List Event → Prop
  | _, [] => True
  | s, e :: es => s.succeeds k i e = false ∧ Calm k i (s.step e) es

/-- When the peer was given to a request. -/
def times (k i : ℕ) (ps : List Pick) : List ℤ := (ps.filter fun p => p.group = k ∧ p.place = i).map Pick.time

/-- The peer has failed too often, and was checked at `t` or later. -/
def Failing (s : System) (k i : ℕ) (timeout t : ℤ) : Prop :=
  ∃ g p, s.groups[k]? = some g ∧ g.single = false ∧ g.peer[i]? = some p ∧ p.maxFails ≠ 0 ∧ p.maxFails ≤ p.fails ∧
    p.failTimeout = timeout ∧ t ≤ p.checked ∧ p.checked ≤ s.now

section Failing

variable {s s' : System} {k i : ℕ} {timeout t : ℤ}

/-- It is given to a request only after its rest, and then rests again. -/
theorem Failing.taken (h : Failing s k i timeout t) (rs : List Request) {j : ℕ} {g : Peers} {p : Peer}
    {tried : Finset ℕ} (hg : s.groups[j]? = some g) {b : ℕ} (hp : g.peer[b]? = some p)
    (hacc : g.accepts s.now tried b p = true) :
    (j = k ∧ b = i → t + timeout < s.now ∧
      Failing { s with groups := s.groups.modify j (Peers.serve s.now tried b), requests := rs } k i timeout s.now) ∧
    (¬ (j = k ∧ b = i) →
      Failing { s with groups := s.groups.modify j (Peers.serve s.now tried b), requests := rs } k i timeout t) := by
  obtain ⟨g₀, p₀, hg₀, hmany, hp₀, hmax, hfails, rfl, ht, hnow⟩ := h
  by_cases hj : j = k
  · subst hj
    obtain rfl := Option.some.inj (hg.symm.trans hg₀)
    have hround := @turnOf_round s.now tried g b i p₀
    have hg' : (s.groups.modify j (Peers.serve s.now tried b))[j]? = some (g.serve s.now tried b) := by
      rw [List.getElem?_modify, hg]
      simp
    have hp' : (g.serve s.now tried b).peer[i]? = some (g.turnOf s.now tried b i p₀) := by
      rw [getElem?_serve, hp₀]
      rfl
    have hkept : ∀ t', t' ≤ (g.turnOf s.now tried b i p₀).checked → (g.turnOf s.now tried b i p₀).checked ≤ s.now →
        Failing { s with groups := s.groups.modify j (Peers.serve s.now tried b), requests := rs } j i p₀.failTimeout t' := by
      intro t' ht' hle
      refine ⟨_, _, hg', hmany, hp', ?_, ?_, hround.same.failTimeout, ht', hle⟩
      · rw [hround.same.maxFails]
        exact hmax
      · rw [hround.same.maxFails, hround.fails]
        exact hfails
    constructor
    · rintro ⟨-, rfl⟩
      obtain rfl := Option.some.inj (hp.symm.trans hp₀)
      have hrest := ((Peers.accepts_spec hacc).2.2 hmany).2
      rw [Peer.resting, decide_eq_false_iff_not] at hrest
      have hlate : p.failTimeout < s.now - p.checked := by
        by_contra hle
        exact hrest ⟨hmax, hfails, Int.not_lt.mp hle⟩
      have hchecked := hround.checked
      rw [decide_eq_true rfl, if_pos ⟨rfl, hmany, hlate⟩] at hchecked
      exact ⟨by omega, hkept s.now hchecked.ge hchecked.le⟩
    · intro hne
      have hchecked := hround.checked
      rw [decide_eq_false fun hb => hne ⟨rfl, hb⟩, if_neg fun hand => absurd hand.1 Bool.false_ne_true] at hchecked
      exact hkept t (hchecked ▸ ht) (hchecked ▸ hnow)
  · refine ⟨fun hand => absurd hand.1 hj, fun _ => ⟨g₀, p₀, ?_, hmany, hp₀, hmax, hfails, rfl, ht, hnow⟩⟩
    rw [List.getElem?_modify, hg₀]
    simp [hj]

/-- A failure is one more, and a success of another peer is not its own. -/
theorem Failing.freed (h : Failing s k i timeout t) {j b : ℕ} {failed : Bool} {rs : List Request}
    (hcalm : j = k ∧ b = i → failed = true) :
    Failing { s with groups := s.groups.modify j (Peers.free s.now failed b), requests := rs } k i timeout t := by
  obtain ⟨g, p, hg, hmany, hp, hmax, hfails, rfl, ht, hnow⟩ := h
  by_cases hj : j = k
  · subst hj
    have hg' : (s.groups.modify j (Peers.free s.now failed b))[j]? = some (g.free s.now failed b) := by
      rw [List.getElem?_modify, hg]
      simp
    by_cases hb : b = i
    · subst hb
      obtain rfl := hcalm ⟨rfl, rfl⟩
      have hp' : (g.free s.now true b).peer[b]? = some (p.report s.now true).disconnect := by
        rw [getElem?_free, hp]
        simp [hmany]
      have hsame := Peer.report_same s.now true p
      refine ⟨_, _, hg', hmany, hp', ?_, ?_, hsame.failTimeout, ?_, ?_⟩
      · exact hsame.maxFails.trans_ne hmax
      · show (p.report s.now true).maxFails ≤ (p.report s.now true).fails
        rw [hsame.maxFails]
        exact hfails.trans (Nat.le_succ _)
      · exact ht.trans hnow
      · exact le_rfl
    · refine ⟨_, p, hg', hmany, ?_, hmax, hfails, rfl, ht, hnow⟩
      rw [getElem?_free, hp]
      simp [hb]
  · refine ⟨g, p, ?_, hmany, hp, hmax, hfails, rfl, ht, hnow⟩
    rw [List.getElem?_modify, hg]
    simp [hj]

/-- One step: a pick of the peer comes after its rest, and any other step
leaves it failing. -/
theorem Failing.step {e : Event} {o : Option Pick} (h : Failing s k i timeout t) (hmove : Move s e o s')
    (hcalm : s.succeeds k i e = false) :
    (times k i o.toList = [s.now] ∧ t + timeout < s.now ∧ Failing s' k i timeout s.now) ∨
      times k i o.toList = [] ∧ Failing s' k i timeout t := by
  cases hmove with
  | tick d =>
    obtain ⟨g, p, hg, hmany, hp, hmax, hfails, htimeout, ht, hnow⟩ := h
    exact Or.inr ⟨rfl, g, p, hg, hmany, hp, hmax, hfails, htimeout, ht, hnow.trans (by simp)⟩
  | none => exact Or.inr ⟨rfl, h⟩
  | request limit => exact Or.inr ⟨rfl, h⟩
  | refused r q hq hready hclosed => exact Or.inr ⟨rfl, h⟩
  | taken r q j b g p hq hready hg hp hacc hbest =>
    obtain ⟨hown, hother⟩ := h.taken (s.requests.set r (q.take g.single j b)) hg hp hacc
    by_cases hpick : q.group + j = k ∧ b = i
    · exact Or.inl ⟨by simp [times, hpick], hown hpick⟩
    · exact Or.inr ⟨by simpa [times] using hpick, hother hpick⟩
  | freed r q p failed again g hq hphase hg =>
    refine Or.inr ⟨rfl, h.freed ?_⟩
    rintro ⟨rfl, rfl⟩
    simpa [System.succeeds, hq, Request.has, hphase] using hcalm

end Failing

theorem times_append (k i : ℕ) (ps ps' : List Pick) : times k i (ps ++ ps') = times k i ps ++ times k i ps' := by
  rw [times, List.filter_append, List.map_append]
  rfl

theorem Failing.gaps {k i : ℕ} {timeout : ℤ} : ∀ (es : List Event) (s : System) (t : ℤ), Failing s k i timeout t →
    Calm k i s es → (t :: times k i (picks s es)).IsChain fun a b => a + timeout < b
  | [], _, _, _, _ => List.IsChain.singleton _
  | e :: es, s, t, h, hcalm => by
    rw [picks, times_append]
    rcases h.step (move_step s e) hcalm.1 with ⟨hpick, hlate, h'⟩ | ⟨hpick, h'⟩
    · rw [hpick]
      exact List.isChain_cons_cons.mpr ⟨hlate, Failing.gaps es _ _ h' hcalm.2⟩
    · rw [hpick]
      exact Failing.gaps es _ _ h' hcalm.2

/-- The first peer of two, after it has failed. -/
def failedSystem : System :=
  (System.start 100 [group false (threeServers.take 2), group false (threeServers.drop 2)]).run
    [.request 0, .connect 0, .release 0 true true]

/-- Later requests: the peer at 0 is asked again after its rest, and fails. -/
def laterEvents : List Event :=
  [.connect 0, .tick 5, .request 0, .connect 1, .tick 6, .request 0, .connect 2, .release 2 true false, .tick 11,
    .request 0, .connect 3]

/-- No request fails, and none asks twice. -/
def Event.smooth : Event → Bool
  | .release _ failed again => !failed && !again
  | _ => true

/-- The weights of the peers of some servers. -/
def weights (servers : List Server) : List ℕ := servers.flatMap fun v => List.replicate v.naddrs v.weight

/-- The weight at a place. -/
def weightAt (ws : List ℕ) (i : ℕ) : ℤ := ((ws[i]?).getD 0 : ℕ)

/-- A peer that has never failed and may have any number of connections. -/
structure Peer.Fit (p : Peer) : Prop where
  down : p.down = false
  maxConns : p.maxConns = 0
  fails : p.fails = 0
  whole : p.effectiveWeight = p.weight

theorem Peer.Fit.usable {p : Peer} (h : p.Fit) (now : ℤ) (i : ℕ) : usable now ∅ i p = true := by
  have hresting : p.resting now = false := by
    rw [Peer.resting, decide_eq_false_iff_not, h.fails]
    omega
  have hfull : p.full = false := by
    rw [Peer.full, decide_eq_false_iff_not, h.maxConns]
    omega
  simp [Nginx.usable, h.down, hresting, hfull]

theorem Peer.Fit.round {p q : Peer} {now : ℤ} {chosen single : Bool} (h : p.Fit) (hr : p.Round now chosen single q) :
    q.Fit :=
  ⟨hr.same.down.trans h.down, hr.same.maxConns.trans h.maxConns, hr.fails.trans h.fails,
    (hr.whole h.whole).trans hr.same.weight.symm⟩

theorem Peer.Fit.report {p : Peer} (h : p.Fit) (now : ℤ) : (p.report now false).disconnect.Fit := by
  unfold Peer.report
  rw [if_neg Bool.false_ne_true]
  split
  · exact ⟨h.down, h.maxConns, rfl, h.whole⟩
  · exact ⟨h.down, h.maxConns, h.fails, h.whole⟩

/-- A group of fit peers with the weights `ws`, after the turns of `bs`. -/
structure FairGroup (ws : List ℕ) (bs : List ℕ) (g : Peers) : Prop where
  many : g.single = false
  length : g.peer.length = ws.length
  fit : ∀ i p, g.peer[i]? = some p → p.Fit ∧ p.weight = weightAt ws i
  credit : ∀ i ∈ Finset.range ws.length,
    credit g.peer i = Turns.turns (Finset.range ws.length) (weightAt ws) (fun _ => 0) bs i

/-- What holds if nothing fails: the only group has turned as it should, and
no request has tried a peer before it asks. -/
structure Even (ws : List ℕ) (s : System) (bs : List ℕ) : Prop where
  group : ∃ g, s.groups = [g] ∧ FairGroup ws bs g
  first : ∀ q ∈ s.requests, q.phase = .ready → q.group = 0 ∧ q.tried = ∅
  served : ∀ q ∈ s.requests, q.phase ≠ .ready → q.visits ≠ []
  proper : Turns.Proper (Finset.range ws.length) (weightAt ws) (fun _ => 0) bs
  mem : ∀ b ∈ bs, b ∈ Finset.range ws.length

section Even

variable {ws bs : List ℕ}

theorem FairGroup.earning {g : Peers} (h : FairGroup ws bs g) (now : ℤ) {i : ℕ} (hi : i ∈ Finset.range ws.length) :
    earning now ∅ g.peer i = weightAt ws i := by
  have hlt : i < g.peer.length := h.length ▸ Finset.mem_range.mp hi
  obtain ⟨hfit, hweight⟩ := h.fit i _ (List.getElem?_eq_getElem hlt)
  rw [Nginx.earning, List.getElem?_eq_getElem hlt]
  simp only [hfit.usable now i, if_true]
  rw [hfit.whole, hweight]

/-- A peer that is fit, after it has earned. -/
theorem FairGroup.earned {g : Peers} (h : FairGroup ws bs g) {i : ℕ} {p : Peer} (hp : g.peer[i]? = some p) :
    p.earn.currentWeight = Turns.turns (Finset.range ws.length) (weightAt ws) (fun _ => 0) bs i + weightAt ws i := by
  have hi : i ∈ Finset.range ws.length := Finset.mem_range.mpr (h.length ▸ (List.getElem?_eq_some_iff.mp hp).1)
  obtain ⟨hfit, hweight⟩ := h.fit i p hp
  have hcredit := h.credit i hi
  simp only [Nginx.credit, hp] at hcredit
  show p.currentWeight + p.effectiveWeight = _
  rw [hfit.whole, hweight, hcredit]

theorem FairGroup.richest {g : Peers} (h : FairGroup ws bs g) {now weight : ℤ} {b : ℕ}
    (hbest : IsBest now ∅ g.peer (some (b, weight))) :
    Turns.Richest (Finset.range ws.length) (weightAt ws)
      (Turns.turns (Finset.range ws.length) (weightAt ws) (fun _ => 0) bs) b := by
  obtain ⟨q, hq, -, hw, hmax⟩ := hbest
  refine ⟨Finset.mem_range.mpr (h.length ▸ (List.getElem?_eq_some_iff.mp hq).1), fun i hi => ?_⟩
  have hlt : i < g.peer.length := h.length ▸ Finset.mem_range.mp hi
  have hp := List.getElem?_eq_getElem hlt
  have hle := (hmax i _ hp ((h.fit i _ hp).1.usable now i)).1
  rw [hw, h.earned hq, h.earned hp] at hle
  exact hle

theorem FairGroup.serve {g : Peers} (h : FairGroup ws bs g) (now : ℤ) {b : ℕ} (hb : b ∈ Finset.range ws.length) :
    FairGroup ws (bs ++ [b]) (g.serve now ∅ b) := by
  have hlt : b < g.peer.length := h.length ▸ Finset.mem_range.mp hb
  refine ⟨h.many, (length_serve g b).trans h.length, fun i p hp => ?_, fun i hi => ?_⟩
  · rw [getElem?_serve] at hp
    obtain ⟨p₀, hp₀, rfl⟩ := Option.map_eq_some_iff.mp hp
    have hround := @turnOf_round now ∅ g b i p₀
    exact ⟨(h.fit i p₀ hp₀).1.round hround, hround.same.weight.trans (h.fit i p₀ hp₀).2⟩
  · have hsum : ∑ j ∈ Finset.range ws.length, Nginx.earning now ∅ g.peer j = ∑ j ∈ Finset.range ws.length, weightAt ws j :=
      Finset.sum_congr rfl fun j hj => h.earning now hj
    rw [Peers.credit_serve h.many hlt, Turns.turns_append, h.length]
    simp only [Turns.turns, Turns.turn]
    rw [h.credit i hi, h.earning now hi, hsum]

theorem FairGroup.free {g : Peers} (h : FairGroup ws bs g) (now : ℤ) (p : ℕ) : FairGroup ws bs (g.free now false p) := by
  refine ⟨h.many, (length_free now false g p).trans h.length, fun i q hq => ?_, fun i hi => ?_⟩
  · rw [getElem?_free] at hq
    obtain ⟨q₀, hq₀, rfl⟩ := Option.map_eq_some_iff.mp hq
    obtain ⟨hfit, hweight⟩ := h.fit i q₀ hq₀
    rw [h.many, if_neg Bool.false_ne_true]
    split
    · exact ⟨hfit.report now, (Peer.report_same now false q₀).weight.trans hweight⟩
    · exact ⟨hfit, hweight⟩
  · rw [credit_free, h.credit i hi]

theorem Even.step {s s' : System} {e : Event} {o : Option Pick} (hpos : 0 < ws.length) (h : Even ws s bs)
    (hmove : Move s e o s') (hsmooth : e.smooth = true) : Even ws s' (bs ++ o.toList.map Pick.place) := by
  obtain ⟨g, hgroups, hgroup⟩ := h.group
  have honly : ∀ {k : ℕ} {g' : Peers}, s.groups[k]? = some g' → k = 0 ∧ g' = g := by
    intro k g' hg'
    rw [hgroups] at hg'
    rcases k with _ | k
    · exact ⟨rfl, (Option.some.inj hg').symm⟩
    · simp at hg'
  cases hmove with
  | tick d => exact ⟨⟨g, hgroups, by simpa using hgroup⟩, h.first, h.served, by simpa using h.proper, by simpa using h.mem⟩
  | none => simpa using h
  | request limit =>
    refine ⟨⟨g, hgroups, by simpa using hgroup⟩, fun q hq hready => ?_, fun q hq hne => ?_, by simpa using h.proper,
      by simpa using h.mem⟩
    · rcases List.mem_append.mp hq with hq | hq
      · exact h.first q hq hready
      · rw [List.mem_singleton.mp hq]
        exact ⟨rfl, rfl⟩
    · rcases List.mem_append.mp hq with hq | hq
      · exact h.served q hq hne
      · rw [List.mem_singleton.mp hq] at hne
        exact absurd rfl hne
  | refused r q hq hready hclosed =>
    -- every peer is usable, so this does not happen
    obtain ⟨hgroup0, htried⟩ := h.first q (List.mem_of_getElem? hq) hready
    have hlt : 0 < g.peer.length := hgroup.length ▸ hpos
    have hp := List.getElem?_eq_getElem hlt
    have hshut := hclosed 0 g (by rw [hgroup0, hgroups]; rfl) 0 _ hp
    rw [Peers.accepts, hgroup.many, if_neg Bool.false_ne_true, triedIn, if_pos rfl, htried,
      (hgroup.fit 0 _ hp).1.usable] at hshut
    cases hshut
  | taken r q k b g' p hq hready hg hp hacc hbest =>
    obtain ⟨hgroup0, htried⟩ := h.first q (List.mem_of_getElem? hq) hready
    obtain ⟨hk, rfl⟩ := honly hg
    have htriedIn : triedIn q.tried k = ∅ := by
      rw [htried, triedIn, ite_self]
    obtain ⟨weight, hbest⟩ := hbest hgroup.many
    rw [htriedIn] at hbest ⊢
    have hrich := hgroup.richest hbest
    refine ⟨⟨g'.serve s.now ∅ b, ?_, hgroup.serve s.now hrich.1⟩, fun q' hq' hready' => ?_, fun q' hq' hne => ?_, ?_, ?_⟩
    · rw [hgroups, hk]
      rfl
    · rcases List.mem_or_eq_of_mem_set hq' with hq' | rfl
      · exact h.first q' hq' hready'
      · cases hready'
    · rcases List.mem_or_eq_of_mem_set hq' with hq' | rfl
      · exact h.served q' hq' hne
      · exact List.append_ne_nil_of_right_ne_nil _ (List.cons_ne_nil _ _)
    · exact Turns.proper_append.mpr ⟨h.proper, hrich, trivial⟩
    · intro b' hb'
      rcases List.mem_append.mp hb' with hb' | hb'
      · exact h.mem b' hb'
      · rw [List.mem_singleton.mp hb']
        exact hrich.1
  | freed r q p failed again g' hq hphase hg =>
    simp only [Event.smooth, Bool.and_eq_true, Bool.not_eq_true'] at hsmooth
    obtain ⟨rfl, rfl⟩ := hsmooth
    obtain ⟨hk, rfl⟩ := honly hg
    refine ⟨⟨g'.free s.now false p, ?_, by simpa using hgroup.free s.now p⟩, fun q' hq' hready' => ?_, fun q' hq' hne => ?_,
      by simpa using h.proper, by simpa using h.mem⟩
    · rw [hgroups, hk]
      rfl
    · rcases List.mem_or_eq_of_mem_set hq' with hq' | rfl
      · exact h.first q' hq' hready'
      · simp at hready'
    · rcases List.mem_or_eq_of_mem_set hq' with hq' | rfl
      · exact h.served q' hq' hne
      · exact h.served q (List.mem_of_getElem? hq) (by simp [hphase])

theorem Even.run (hpos : 0 < ws.length) : ∀ (es : List Event) (s : System) (bs : List ℕ), Even ws s bs →
    (∀ e ∈ es, e.smooth = true) → Even ws (s.run es) (bs ++ (picks s es).map Pick.place)
  | [], s, bs, h, _ => by simpa [picks, System.run] using h
  | e :: es, s, bs, h, hes => by
    have hstep := h.step hpos (move_step s e) (hes e List.mem_cons_self)
    have hrest := Even.run hpos es _ _ hstep fun e' he' => hes e' (List.mem_cons_of_mem _ he')
    rw [picks, List.map_append, ← List.append_assoc]
    exact hrest

end Even

theorem weights_eq (servers : List Server) :
    (group false servers).peer.map Peer.weight = (weights servers).map (Nat.cast : ℕ → ℤ) := by
  simp [group, weights, List.map_flatMap, Server.peer]

/-- The group of the servers, before any request. -/
theorem fairGroup_start {servers : List Server} (h : ∀ v ∈ servers, v.down = false ∧ v.maxConns = 0) :
    FairGroup (weights servers) [] (group false servers) := by
  have hpeer : ∀ i p, (group false servers).peer[i]? = some p → ∃ v ∈ servers, p = v.peer := fun i p hp =>
    of_mem_group (List.mem_of_getElem? hp)
  refine ⟨rfl, ?_, fun i p hp => ⟨?_, ?_⟩, fun i hi => ?_⟩
  · simpa using congrArg List.length (weights_eq servers)
  · obtain ⟨v, hv, rfl⟩ := hpeer i p hp
    exact ⟨(h v hv).1, (h v hv).2, rfl, rfl⟩
  · have hmap := congrArg (fun l => l[i]?) (weights_eq servers)
    simp only [List.getElem?_map, hp, Option.map_some] at hmap
    obtain ⟨w, hw, hcast⟩ := Option.map_eq_some_iff.mp hmap.symm
    rw [weightAt, hw, Option.getD_some, hcast]
  · rw [Nginx.credit]
    rcases hp : (group false servers).peer[i]? with _ | p
    · rfl
    · obtain ⟨v, -, rfl⟩ := hpeer i p hp
      rfl

/-- The sum of the weights. -/
theorem sum_weightAt (ws : List ℕ) : ∑ i ∈ Finset.range ws.length, weightAt ws i = (ws.sum : ℕ) := by
  induction ws using List.reverseRecOn with
  | nil => rfl
  | append_singleton ws w ih =>
    rw [List.length_append, List.length_singleton, Finset.sum_range_succ, List.sum_append, List.sum_singleton,
      Nat.cast_add, ← ih]
    congr 1
    · apply Finset.sum_congr rfl
      intro i hi
      rw [weightAt, weightAt, List.getElem?_append_left (Finset.mem_range.mp hi)]
    · rw [weightAt, List.getElem?_concat_length, Option.getD_some]

/-- Two servers, one of them five times as large. -/
def twoServers : List Server := [⟨1, 5, 0, 1, 10, false, false⟩, ⟨1, 1, 0, 1, 10, false, false⟩]

/-- Six requests, of which one ends before the last two come. -/
def sixRequests : List Event :=
  [.request 0, .request 0, .connect 1, .connect 0, .request 0, .request 0, .connect 2, .release 0 false false, .connect 3,
    .tick 1, .request 0, .request 0, .connect 5, .connect 4]

end Nginx
end OpsScripts
