/-
# The round robin of nginx

`ngx_http_upstream_round_robin.c`: the peers that `upstream` names, how
`ngx_http_upstream_get_peer` chooses one of them, and what
`ngx_http_upstream_free_round_robin_peer` learns from a request that has
ended. A peer that is not skipped earns its effective weight, and the one that
is then richest pays what all of them earned: the turns of `Turns`
(`credit_getPeer`).

The peer of a request is its place in the list of the group; the words of the
`tried` bitmap are the set of the places whose bit is set.

Key definitions: `initRoundRobin`, `getPeer`, `Peers.get`, `Peers.free`.
Key theorems: `scan_spec`, `getPeer_eq_none`, `getPeer_eq_some`,
`credit_getPeer`.
-/
import OpsScripts.Turns

namespace OpsScripts
namespace Nginx

/-! ### Peers -/

/-- A `server` of an `upstream`, with the number of addresses of its name. -/
structure Server where
  naddrs : ℕ
  weight : ℕ
  maxConns : ℕ
  maxFails : ℕ
  failTimeout : ℤ
  down : Bool
  backup : Bool

structure Peer where
  currentWeight : ℤ
  effectiveWeight : ℤ
  weight : ℤ
  conns : ℕ
  maxConns : ℕ
  fails : ℕ
  accessed : ℤ
  checked : ℤ
  maxFails : ℕ
  failTimeout : ℤ
  down : Bool

/-- A group of peers; `next` is the following one in a list of groups. -/
structure Peers where
  single : Bool
  tries : ℕ
  peer : List Peer

def Server.peer (s : Server) : Peer where
  currentWeight := 0
  effectiveWeight := s.weight
  weight := s.weight
  conns := 0
  maxConns := s.maxConns
  fails := 0
  accessed := 0
  checked := 0
  maxFails := s.maxFails
  failTimeout := s.failTimeout
  down := s.down

/-- The peers of some servers, and how many of them are not down. -/
def group (single : Bool) (servers : List Server) : Peers where
  single := single
  tries := ((servers.filter fun s => !s.down).map Server.naddrs).sum
  peer := servers.flatMap fun s => List.replicate s.naddrs s.peer

/-- `ngx_http_upstream_init_round_robin`: the primary peers and, if there are
any, the backup ones. -/
def initRoundRobin (servers : List Server) : Option (List Peers) :=
  let primary := servers.filter fun s => !s.backup
  let backup := servers.filter fun s => s.backup
  let n := (primary.map Server.naddrs).sum
  if n = 0 then none
  else if (backup.map Server.naddrs).sum = 0 then some [group (n = 1) primary]
  else some [group false primary, group false backup]

/-! ### Choosing -/

/-- More connections are not allowed. -/
def Peer.full (p : Peer) : Bool := p.maxConns ≠ 0 ∧ p.maxConns ≤ p.conns

/-- It has failed too often, and too recently. -/
def Peer.resting (now : ℤ) (p : Peer) : Bool :=
  p.maxFails ≠ 0 ∧ p.maxFails ≤ p.fails ∧ now - p.checked ≤ p.failTimeout

/-- The peer at `i` may be chosen. -/
def usable (now : ℤ) (tried : Finset ℕ) (i : ℕ) (p : Peer) : Bool :=
  i ∉ tried ∧ p.down = false ∧ p.resting now = false ∧ p.full = false

/-- What a usable peer gains in a round. -/
def Peer.earn (p : Peer) : Peer :=
  { p with
    currentWeight := p.currentWeight + p.effectiveWeight
    effectiveWeight := if p.effectiveWeight < p.weight then p.effectiveWeight + 1 else p.effectiveWeight }

/-- What the chosen one pays. -/
def Peer.charge (total now : ℤ) (p : Peer) : Peer :=
  { p with
    currentWeight := p.currentWeight - total
    checked := if p.failTimeout < now - p.checked then now else p.checked }

/-- The loop of `ngx_http_upstream_get_peer`: the peers it has passed, the
best of them with its weight, and what they have earned. -/
structure Scan where
  passed : List Peer
  best : Option (ℕ × ℤ)
  total : ℤ

/-- The better of `best` and the peer at `i`. -/
def better : Option (ℕ × ℤ) → ℕ → ℤ → Option (ℕ × ℤ)
  | none, i, weight => some (i, weight)
  | some b, i, weight => if b.2 < weight then some (i, weight) else some b

def Scan.step (now : ℤ) (tried : Finset ℕ) (s : Scan) (p : Peer) : Scan :=
  let i := s.passed.length
  if usable now tried i p then
    ⟨s.passed ++ [p.earn], better s.best i p.earn.currentWeight, s.total + p.effectiveWeight⟩
  else ⟨s.passed ++ [p], s.best, s.total⟩

def scan (now : ℤ) (tried : Finset ℕ) (ps : List Peer) : Scan := ps.foldl (Scan.step now tried) ⟨[], none, 0⟩

/-- `ngx_http_upstream_get_peer`: the place of the peer, if there is one, and
the peers as it leaves them. -/
def getPeer (now : ℤ) (tried : Finset ℕ) (ps : List Peer) : Option ℕ × List Peer :=
  let s := scan now tried ps
  match s.best with
  | none => (none, s.passed)
  | some (p, _) => (some p, s.passed.modify p (Peer.charge s.total now))

def Peer.connect (p : Peer) : Peer := { p with conns := p.conns + 1 }

/-- `ngx_http_upstream_get_round_robin_peer`, in one group. -/
def Peers.get (now : ℤ) (tried : Finset ℕ) (g : Peers) : Option ℕ × Peers :=
  if g.single then
    match g.peer with
    | [] => (none, g)
    | p :: ps => if p.down || p.full then (none, g) else (some 0, { g with peer := p.connect :: ps })
  else
    match getPeer now tried g.peer with
    | (none, ps) => (none, { g with peer := ps })
    | (some p, ps) => (some p, { g with peer := ps.modify p Peer.connect })

/-! ### Letting go -/

/-- What a peer is told about a request that it had. -/
def Peer.report (now : ℤ) (failed : Bool) (p : Peer) : Peer :=
  if failed then
    let effective := if p.maxFails ≠ 0 then p.effectiveWeight - p.weight / p.maxFails else p.effectiveWeight
    { p with
      fails := p.fails + 1
      accessed := now
      checked := now
      effectiveWeight := if effective < 0 then 0 else effective }
  else if p.accessed < p.checked then { p with fails := 0 }
  else p

def Peer.disconnect (p : Peer) : Peer := { p with conns := p.conns - 1 }

/-- `ngx_http_upstream_free_round_robin_peer`, on the peers of a group. -/
def Peers.free (now : ℤ) (failed : Bool) (p : ℕ) (g : Peers) : Peers :=
  { g with peer := g.peer.modify p fun q => if g.single then q.disconnect else (q.report now failed).disconnect }

/-- The tries that a request has left after that. -/
def Peers.triesLeft (g : Peers) (tries : ℕ) : ℕ := if g.single then 0 else tries - 1

/-! ### What the loop computes -/

section Choice

variable (now : ℤ) (tried : Finset ℕ)

/-- The peers after a round in which none is chosen yet. -/
def earnAll (ps : List Peer) : List Peer := ps.mapIdx fun i p => if usable now tried i p then p.earn else p

/-- What the peer at `i` earns in a round. -/
def earning (ps : List Peer) (i : ℕ) : ℤ :=
  match ps[i]? with
  | none => 0
  | some p => if usable now tried i p then p.effectiveWeight else 0

/-- The best of the usable peers: the first of the richest. -/
def IsBest (ps : List Peer) : Option (ℕ × ℤ) → Prop
  | none => ∀ i p, ps[i]? = some p → usable now tried i p = false
  | some (b, weight) => ∃ q, ps[b]? = some q ∧ usable now tried b q = true ∧ weight = q.earn.currentWeight ∧
      ∀ i p, ps[i]? = some p → usable now tried i p = true →
        p.earn.currentWeight ≤ weight ∧ (i < b → p.earn.currentWeight < weight)

variable {now tried}

theorem length_earnAll (ps : List Peer) : (earnAll now tried ps).length = ps.length := List.length_mapIdx

theorem getElem?_earnAll (ps : List Peer) (i : ℕ) : (earnAll now tried ps)[i]? =
    (ps[i]?).map fun p => if usable now tried i p then p.earn else p := List.getElem?_mapIdx

theorem earnAll_concat (ps : List Peer) (p : Peer) : earnAll now tried (ps ++ [p]) =
    earnAll now tried ps ++ [if usable now tried ps.length p then p.earn else p] := List.mapIdx_concat

theorem getElem?_concat_cases {ps : List Peer} {p q : Peer} {i : ℕ} (h : (ps ++ [p])[i]? = some q) :
    ps[i]? = some q ∨ i = ps.length ∧ q = p := by
  rcases Nat.lt_trichotomy i ps.length with hlt | heq | hgt
  · exact Or.inl (by rwa [List.getElem?_append_left hlt] at h)
  · subst heq
    rw [List.getElem?_concat_length] at h
    exact Or.inr ⟨rfl, (Option.some.inj h).symm⟩
  · rw [List.getElem?_eq_none (by simp; omega)] at h
    cases h

theorem sum_earning_concat (ps : List Peer) (p : Peer) :
    ∑ i ∈ Finset.range (ps ++ [p]).length, earning now tried (ps ++ [p]) i =
      ∑ i ∈ Finset.range ps.length, earning now tried ps i +
        if usable now tried ps.length p then p.effectiveWeight else 0 := by
  rw [List.length_append, List.length_singleton, Finset.sum_range_succ]
  congr 1
  · apply Finset.sum_congr rfl
    intro i hi
    rw [earning, earning, List.getElem?_append_left (Finset.mem_range.mp hi)]
  · rw [earning, List.getElem?_concat_length]

theorem IsBest.skip {ps : List Peer} {best : Option (ℕ × ℤ)} {p : Peer} (h : IsBest now tried ps best)
    (hp : usable now tried ps.length p = false) : IsBest now tried (ps ++ [p]) best := by
  rcases best with _ | ⟨b, weight⟩
  · intro i q hq
    rcases getElem?_concat_cases hq with hq | ⟨rfl, rfl⟩
    · exact h i q hq
    · exact hp
  · obtain ⟨q, hq, hu, hw, hmax⟩ := h
    have hlt := (List.getElem?_eq_some_iff.mp hq).1
    refine ⟨q, by rw [List.getElem?_append_left hlt, hq], hu, hw, fun i r hr hur => ?_⟩
    rcases getElem?_concat_cases hr with hr | ⟨rfl, rfl⟩
    · exact hmax i r hr hur
    · rw [hp] at hur
      cases hur

theorem IsBest.better {ps : List Peer} {best : Option (ℕ × ℤ)} {p : Peer} (h : IsBest now tried ps best)
    (hp : usable now tried ps.length p = true) :
    IsBest now tried (ps ++ [p]) (better best ps.length p.earn.currentWeight) := by
  have hlast : (ps ++ [p])[ps.length]? = some p := List.getElem?_concat_length
  rcases best with _ | ⟨b, weight⟩
  · refine ⟨p, hlast, hp, rfl, fun i r hr hur => ?_⟩
    rcases getElem?_concat_cases hr with hr | ⟨rfl, rfl⟩
    · rw [h i r hr] at hur
      cases hur
    · exact ⟨le_rfl, fun hi => absurd hi (lt_irrefl _)⟩
  · obtain ⟨q, hq, hu, hw, hmax⟩ := h
    have hlt := (List.getElem?_eq_some_iff.mp hq).1
    rw [Nginx.better]
    by_cases hbetter : weight < p.earn.currentWeight
    · rw [if_pos hbetter]
      refine ⟨p, hlast, hp, rfl, fun i r hr hur => ?_⟩
      rcases getElem?_concat_cases hr with hr | ⟨rfl, rfl⟩
      · have hle := (hmax i r hr hur).1
        exact ⟨by omega, fun _ => by omega⟩
      · exact ⟨le_rfl, fun hi => absurd hi (lt_irrefl _)⟩
    · rw [if_neg hbetter]
      refine ⟨q, by rw [List.getElem?_append_left hlt, hq], hu, hw, fun i r hr hur => ?_⟩
      rcases getElem?_concat_cases hr with hr | ⟨rfl, rfl⟩
      · exact hmax i r hr hur
      · exact ⟨by omega, fun hi => by omega⟩

theorem scan_concat (ps : List Peer) (p : Peer) :
    scan now tried (ps ++ [p]) = Scan.step now tried (scan now tried ps) p := by
  rw [scan, List.foldl_append]
  rfl

/-- **The loop**: every usable peer has earned, and the best one is found. -/
theorem scan_spec (ps : List Peer) : (scan now tried ps).passed = earnAll now tried ps ∧
    (scan now tried ps).total = ∑ i ∈ Finset.range ps.length, earning now tried ps i ∧
    IsBest now tried ps (scan now tried ps).best := by
  induction ps using List.reverseRecOn with
  | nil => exact ⟨rfl, rfl, fun i p h => by simp at h⟩
  | append_singleton ps p ih =>
    obtain ⟨hpassed, htotal, hbest⟩ := ih
    rw [scan_concat, Scan.step, hpassed, length_earnAll, earnAll_concat, sum_earning_concat, ← htotal]
    by_cases hu : usable now tried ps.length p = true
    · simp only [if_pos hu]
      exact ⟨trivial, trivial, hbest.better hu⟩
    · simp only [if_neg hu, add_zero]
      exact ⟨trivial, trivial, hbest.skip (Bool.eq_false_iff.mpr hu)⟩

/-- A round in which the peer at `b` is chosen. -/
def chooseAt (now : ℤ) (tried : Finset ℕ) (b : ℕ) (ps : List Peer) : List Peer :=
  (earnAll now tried ps).modify b (Peer.charge (∑ i ∈ Finset.range ps.length, earning now tried ps i) now)

/-- **What `ngx_http_upstream_get_peer` does**: nothing, if no peer is usable,
or it chooses the best of the usable ones. -/
theorem getPeer_cases (now : ℤ) (tried : Finset ℕ) (ps : List Peer) :
    (getPeer now tried ps = (none, ps) ∧ IsBest now tried ps none) ∨
      ∃ b weight, getPeer now tried ps = (some b, chooseAt now tried b ps) ∧ IsBest now tried ps (some (b, weight)) := by
  obtain ⟨hpassed, htotal, hbest⟩ := @scan_spec now tried ps
  unfold getPeer
  rcases h : (scan now tried ps).best with _ | ⟨b, weight⟩
  · rw [h] at hbest
    have hkept : earnAll now tried ps = ps := by
      apply List.ext_getElem?
      intro i
      rw [getElem?_earnAll]
      rcases hp : ps[i]? with _ | p
      · rfl
      · rw [Option.map_some, hbest i p hp]
        rfl
    simp only [h]
    exact Or.inl ⟨by rw [hpassed, hkept], hbest⟩
  · rw [h] at hbest
    simp only [h]
    exact Or.inr ⟨b, weight, by rw [hpassed, htotal, chooseAt], hbest⟩

/-! ### Turns -/

/-- The current weight of the peer at `i`. -/
def credit (ps : List Peer) (i : ℕ) : ℤ :=
  match ps[i]? with
  | none => 0
  | some p => p.currentWeight

theorem length_chooseAt (b : ℕ) (ps : List Peer) : (chooseAt now tried b ps).length = ps.length := by
  rw [chooseAt, List.length_modify, length_earnAll]

theorem getElem?_chooseAt (b i : ℕ) (ps : List Peer) : (chooseAt now tried b ps)[i]? = (ps[i]?).map fun p =>
    let q := if usable now tried i p then p.earn else p
    if b = i then q.charge (∑ i ∈ Finset.range ps.length, earning now tried ps i) now else q := by
  rw [chooseAt, List.getElem?_modify, getElem?_earnAll, Option.map_eq_map, Option.map_map]
  rfl

/-- **A choice is a turn**: the usable peers earn their effective weights, and
the chosen one pays the sum. -/
theorem credit_chooseAt {b : ℕ} {ps : List Peer} (hb : b < ps.length) (i : ℕ) :
    credit (chooseAt now tried b ps) i =
      Turns.turn (Finset.range ps.length) (earning now tried ps) (credit ps) b i := by
  have hearn : ∀ p : Peer, (if usable now tried i p then p.earn else p).currentWeight =
      p.currentWeight + if usable now tried i p then p.effectiveWeight else 0 := by
    intro p
    by_cases hu : usable now tried i p = true
    · rw [if_pos hu, if_pos hu]
      rfl
    · rw [if_neg hu, if_neg hu, add_zero]
  unfold Turns.turn
  rw [credit, credit, earning, getElem?_chooseAt]
  rcases hp : ps[i]? with _ | p
  · have hne : i ≠ b := by
      rintro rfl
      rw [List.getElem?_eq_none_iff] at hp
      omega
    simp [hne]
  · by_cases hib : i = b
    · subst hib
      simp only [Option.map_some, if_pos, Peer.charge]
      rw [hearn p]
    · simp only [Option.map_some, if_neg hib, if_neg (Ne.symm hib)]
      rw [hearn p, sub_zero]

/-! ### One group, and the groups behind it -/

/-- The peer at `i` of the group may be taken. The only peer of a group is
taken even if it has been tried and has failed. -/
def Peers.accepts (now : ℤ) (tried : Finset ℕ) (g : Peers) (i : ℕ) (p : Peer) : Bool :=
  if g.single then decide (i = 0) && !(p.down || p.full) else usable now tried i p

/-- The group after its peer at `b` was taken. -/
def Peers.serve (now : ℤ) (tried : Finset ℕ) (b : ℕ) (g : Peers) : Peers :=
  { g with peer := (if g.single then g.peer else chooseAt now tried b g.peer).modify b Peer.connect }

/-- No peer of the group may be taken. -/
def Peers.Closed (now : ℤ) (tried : Finset ℕ) (g : Peers) : Prop :=
  ∀ i p, g.peer[i]? = some p → g.accepts now tried i p = false

theorem Peers.get_cases (now : ℤ) (tried : Finset ℕ) (g : Peers) :
    (g.get now tried = (none, g) ∧ g.Closed now tried) ∨
      ∃ b q, g.get now tried = (some b, g.serve now tried b) ∧ g.peer[b]? = some q ∧ g.accepts now tried b q = true ∧
        (g.single = false → ∃ weight, IsBest now tried g.peer (some (b, weight))) := by
  unfold Peers.get Peers.serve Peers.Closed Peers.accepts
  by_cases hsingle : g.single = true
  · simp only [if_pos hsingle]
    rcases hp : g.peer with _ | ⟨p, ps⟩
    · exact Or.inl ⟨rfl, fun i p h => by simp at h⟩
    · by_cases hout : (p.down || p.full) = true
      · refine Or.inl ⟨by simp only [if_pos hout], fun i q hq => ?_⟩
        rcases i with _ | i
        · rw [List.getElem?_cons_zero] at hq
          rw [← Option.some.inj hq, hout]
          rfl
        · rfl
      · refine Or.inr ⟨0, p, by simp only [if_neg hout, List.modify_zero_cons], rfl, ?_, fun h => ?_⟩
        · rw [Bool.eq_false_iff.mpr hout]
          rfl
        · rw [hsingle] at h
          cases h
  · simp only [if_neg hsingle]
    rcases getPeer_cases now tried g.peer with ⟨heq, hnone⟩ | ⟨b, weight, heq, hbest⟩
    · exact Or.inl ⟨by rw [heq], hnone⟩
    · obtain ⟨q, hq, hu, -, -⟩ := id hbest
      exact Or.inr ⟨b, q, by rw [heq], hq, hu, fun _ => ⟨weight, hbest⟩⟩

/-- `ngx_http_upstream_get_round_robin_peer` in a group and those behind it,
none of which has been tried. -/
def getFrom (now : ℤ) : Finset ℕ → List Peers → Option (ℕ × ℕ) × List Peers
  | _, [] => (none, [])
  | tried, g :: gs =>
    match g.get now tried with
    | (some b, g) => (some (0, b), g :: gs)
    | (none, g) =>
      let (c, gs) := getFrom now ∅ gs
      (c.map fun (k, b) => (k + 1, b), g :: gs)

/-- What has been tried, as the group `k` further on sees it. -/
def triedIn (tried : Finset ℕ) (k : ℕ) : Finset ℕ := if k = 0 then tried else ∅

theorem getFrom_cases (now : ℤ) (gs : List Peers) (tried : Finset ℕ) :
    (getFrom now tried gs = (none, gs) ∧ ∀ (k : ℕ) (g : Peers), gs[k]? = some g → g.Closed now (triedIn tried k)) ∨
      ∃ (k b : ℕ) (g : Peers) (q : Peer), getFrom now tried gs = (some (k, b), gs.modify k (Peers.serve now (triedIn tried k) b)) ∧
        gs[k]? = some g ∧ g.peer[b]? = some q ∧ g.accepts now (triedIn tried k) b q = true ∧
        (g.single = false → ∃ weight, IsBest now (triedIn tried k) g.peer (some (b, weight))) ∧
        ∀ (k' : ℕ) (g' : Peers), k' < k → gs[k']? = some g' → g'.Closed now (triedIn tried k') := by
  induction gs generalizing tried with
  | nil => exact Or.inl ⟨rfl, fun k g h => by simp at h⟩
  | cons g gs ih =>
    have htried : ∀ k, triedIn ∅ k = triedIn tried (k + 1) := by
      intro k
      unfold triedIn
      rw [if_neg (Nat.succ_ne_zero k), ite_self]
    rcases g.get_cases now tried with ⟨hget, hclosed⟩ | ⟨b, q, hget, hq, hacc, hbest⟩
    · rw [getFrom, hget]
      rcases ih ∅ with ⟨heq, hall⟩ | ⟨k, b, g', q, heq, hg', hq, hacc, hbest, hall⟩
      · refine Or.inl ⟨by simp only [heq, Option.map_none], fun k g' hg' => ?_⟩
        rcases k with _ | k
        · rw [List.getElem?_cons_zero] at hg'
          rw [← Option.some.inj hg']
          exact hclosed
        · rw [← htried k]
          exact hall k g' hg'
      · rw [htried k] at heq hacc hbest
        refine Or.inr ⟨k + 1, b, g', q, ?_, hg', hq, hacc, hbest, fun k' g'' hk' hg'' => ?_⟩
        · simp only [heq, Option.map_some, List.modify_succ_cons]
        · rcases k' with _ | k'
          · rw [List.getElem?_cons_zero] at hg''
            rw [← Option.some.inj hg'']
            exact hclosed
          · rw [← htried k']
            exact hall k' g'' (Nat.lt_of_succ_lt_succ hk') hg''
    · refine Or.inr ⟨0, b, g, q, ?_, rfl, hq, hacc, hbest, fun k' g' hk' => absurd hk' (Nat.not_lt_zero _)⟩
      rw [getFrom, hget]
      rfl

/-! ### A peer through a round -/

/-- What happens to the peer at `i` if the one at `b` is taken. -/
def Peers.turnOf (now : ℤ) (tried : Finset ℕ) (b : ℕ) (g : Peers) (i : ℕ) (p : Peer) : Peer :=
  let q := if usable now tried i p then p.earn else p
  let r := if b = i then q.charge (∑ i ∈ Finset.range g.peer.length, earning now tried g.peer i) now else q
  let r := if g.single then p else r
  if b = i then r.connect else r

theorem getElem?_serve (g : Peers) (b i : ℕ) :
    (g.serve now tried b).peer[i]? = (g.peer[i]?).map (g.turnOf now tried b i) := by
  rw [Peers.serve, List.getElem?_modify]
  by_cases hs : g.single = true
  · simp only [if_pos hs]
    rcases g.peer[i]? with _ | p
    · rfl
    · simp [Peers.turnOf, hs]
  · simp only [if_neg hs, getElem?_chooseAt]
    rcases g.peer[i]? with _ | p
    · rfl
    · simp [Peers.turnOf, hs]

theorem length_serve (g : Peers) (b : ℕ) : (g.serve now tried b).peer.length = g.peer.length := by
  rw [Peers.serve, List.length_modify]
  split
  · rfl
  · exact length_chooseAt b g.peer

/-- What is set once: the server of a peer and its limits. -/
structure Peer.SameServer (p q : Peer) : Prop where
  weight : q.weight = p.weight
  maxConns : q.maxConns = p.maxConns
  maxFails : q.maxFails = p.maxFails
  failTimeout : q.failTimeout = p.failTimeout
  down : q.down = p.down

theorem Peer.SameServer.trans {p q r : Peer} (h : p.SameServer q) (h' : q.SameServer r) : p.SameServer r :=
  ⟨h'.weight.trans h.weight, h'.maxConns.trans h.maxConns, h'.maxFails.trans h.maxFails,
    h'.failTimeout.trans h.failTimeout, h'.down.trans h.down⟩

/-- The effective weight is within the bounds. -/
def Peer.Sound (p : Peer) : Prop := 0 ≤ p.effectiveWeight ∧ p.effectiveWeight ≤ p.weight

/-- What a round does to a peer, chosen or not. -/
structure Peer.Round (now : ℤ) (chosen single : Bool) (p q : Peer) : Prop where
  same : p.SameServer q
  fails : q.fails = p.fails
  accessed : q.accessed = p.accessed
  conns : q.conns = p.conns + if chosen then 1 else 0
  checked : q.checked = if chosen = true ∧ single = false ∧ p.failTimeout < now - p.checked then now else p.checked
  sound : p.Sound → q.Sound
  whole : p.effectiveWeight = p.weight → q.effectiveWeight = p.weight

theorem Peer.Sound.earn {p : Peer} (h : p.Sound) : p.earn.Sound := by
  obtain ⟨h0, hw⟩ := h
  unfold Peer.Sound Peer.earn
  by_cases hlt : p.effectiveWeight < p.weight
  · simp only [if_pos hlt]
    omega
  · simp only [if_neg hlt]
    omega

theorem turnOf_round (g : Peers) (b i : ℕ) (p : Peer) :
    p.Round now (b = i) g.single (g.turnOf now tried b i p) := by
  have hearn : ∀ u : Bool, p.Round now false g.single (if u then p.earn else p) := by
    intro u
    cases u with
    | true => exact ⟨⟨rfl, rfl, rfl, rfl, rfl⟩, rfl, rfl, rfl, rfl, Peer.Sound.earn, fun h => by simp [Peer.earn, h]⟩
    | false => exact ⟨⟨rfl, rfl, rfl, rfl, rfl⟩, rfl, rfl, rfl, rfl, id, id⟩
  have hq := hearn (usable now tried i p)
  unfold Peers.turnOf
  by_cases hb : b = i
  · simp only [if_pos hb, decide_eq_true hb]
    cases hs : g.single with
    | true => exact ⟨⟨rfl, rfl, rfl, rfl, rfl⟩, rfl, rfl, rfl, by simp [Peer.connect], id, id⟩
    | false =>
      have hchecked : (if usable now tried i p then p.earn else p).checked = p.checked := by
        rw [hq.checked, if_neg (fun h => absurd h.1 Bool.false_ne_true)]
      refine ⟨⟨hq.same.weight, hq.same.maxConns, hq.same.maxFails, hq.same.failTimeout, hq.same.down⟩,
        hq.fails, hq.accessed, ?_, ?_, hq.sound, hq.whole⟩
      · exact congrArg (· + 1) hq.conns
      · simp only [Bool.false_eq_true, if_false, Peer.connect, Peer.charge, hchecked, hq.same.failTimeout, true_and]
  · simp only [if_neg hb, decide_eq_false hb]
    cases hs : g.single with
    | true => exact ⟨⟨rfl, rfl, rfl, rfl, rfl⟩, rfl, rfl, rfl, by simp, id, id⟩
    | false =>
      rw [hs] at hq
      exact hq

theorem credit_connect (b : ℕ) (ps : List Peer) (i : ℕ) : credit (ps.modify b Peer.connect) i = credit ps i := by
  rw [credit, credit, List.getElem?_modify]
  rcases ps[i]? with _ | p
  · rfl
  · by_cases hbi : b = i
    · simp [hbi, Peer.connect]
    · simp [hbi]

theorem Peers.credit_serve {g : Peers} (hmany : g.single = false) {b : ℕ} (hb : b < g.peer.length) (i : ℕ) :
    credit (g.serve now tried b).peer i =
      Turns.turn (Finset.range g.peer.length) (earning now tried g.peer) (credit g.peer) b i := by
  rw [Peers.serve, credit_connect, hmany, if_neg Bool.false_ne_true, credit_chooseAt hb]

theorem Peers.balance_serve {g : Peers} {b : ℕ} (hb : b < g.peer.length) :
    ∑ i ∈ Finset.range (g.serve now tried b).peer.length, credit (g.serve now tried b).peer i =
      ∑ i ∈ Finset.range g.peer.length, credit g.peer i := by
  rw [length_serve]
  cases hs : g.single with
  | true => simp only [Peers.serve, credit_connect, hs, if_true]
  | false =>
    simp only [Peers.credit_serve hs hb]
    exact Turns.sum_turn (Finset.mem_range.mpr hb)

end Choice

/-! ### A peer that is let go -/

theorem getElem?_free (now : ℤ) (failed : Bool) (g : Peers) (p i : ℕ) : (g.free now failed p).peer[i]? =
    (g.peer[i]?).map fun q =>
      if p = i then if g.single then q.disconnect else (q.report now failed).disconnect else q := by
  rw [Peers.free, List.getElem?_modify]
  rcases g.peer[i]? with _ | q
  · rfl
  · by_cases hpi : p = i
    · simp [hpi]
    · simp [hpi]

theorem Peer.report_same (now : ℤ) (failed : Bool) (p : Peer) : p.SameServer (p.report now failed) := by
  unfold Peer.report
  split
  · exact ⟨rfl, rfl, rfl, rfl, rfl⟩
  · split
    · exact ⟨rfl, rfl, rfl, rfl, rfl⟩
    · exact ⟨rfl, rfl, rfl, rfl, rfl⟩

theorem Peer.report_conns (now : ℤ) (failed : Bool) (p : Peer) : (p.report now failed).conns = p.conns := by
  unfold Peer.report
  split
  · rfl
  · split <;> rfl

theorem Peer.report_currentWeight (now : ℤ) (failed : Bool) (p : Peer) :
    (p.report now failed).currentWeight = p.currentWeight := by
  unfold Peer.report
  split
  · rfl
  · split <;> rfl

theorem Peer.Sound.report {p : Peer} (h : p.Sound) (now : ℤ) (failed : Bool) : (p.report now failed).Sound := by
  obtain ⟨h0, hw⟩ := h
  have hcut : 0 ≤ p.weight / (p.maxFails : ℤ) := Int.ediv_nonneg (h0.trans hw) (Int.natCast_nonneg _)
  unfold Peer.Sound Peer.report
  by_cases hf : failed = true
  · simp only [if_pos hf]
    by_cases hm : p.maxFails ≠ 0
    · simp only [if_pos hm]
      split <;> omega
    · simp only [if_neg hm]
      split <;> omega
  · simp only [if_neg hf]
    split
    · exact ⟨h0, hw⟩
    · exact ⟨h0, hw⟩

end Nginx
end OpsScripts
