/-
# Requests at an upstream

Any number of requests share the groups of an upstream. A request asks for a
peer (`ngx_http_upstream_connect`), has it for a while, and lets go of it with
or without a failure (`ngx_http_upstream_next`,
`ngx_http_upstream_finalize_request`); after that it may ask again as long as
it has tries left. Each of these is one step under the lock of the group, and
they come in any order.

In every run a peer counts exactly the requests that have it, within its
limit, its effective weight is between 0 and its weight, and the current
weights of a group add up to 0 (`accounts_run`).

Key definitions: `System.step`, `picks`, `Move`, `Accounts`.
Key theorems: `move_step`, `run_induct`, `Accounts.step`.
-/
import OpsScripts.Nginx.RoundRobin

namespace OpsScripts
namespace Nginx

/-! ### Requests -/

inductive Phase
  /-- It is about to ask for a peer. -/
  | ready
  /-- It has the peer at this place of its group. -/
  | connected (p : ℕ)
  | done
  deriving DecidableEq

/-- A request, with the tries that it came with and the peers that it has been
given so far. -/
structure Request where
  group : ℕ
  tried : Finset ℕ
  tries : ℕ
  phase : Phase
  limit : ℕ
  visits : List (ℕ × ℕ)

structure System where
  now : ℤ
  groups : List Peers
  requests : List Request

inductive Event
  /-- Time passes. -/
  | tick (d : ℕ)
  /-- A request comes in, where `proxy_next_upstream_tries` is `limit`. -/
  | request (limit : ℕ)
  /-- A request asks for a peer. -/
  | connect (r : ℕ)
  /-- A request lets go of its peer, and asks for another one if it may. -/
  | release (r : ℕ) (failed again : Bool)

/-- The tries of a request, where `proxy_next_upstream_tries` is `limit`. -/
def triesOf (gs : List Peers) (limit : ℕ) : ℕ :=
  if limit ≠ 0 ∧ limit < (gs.map Peers.tries).sum then limit else (gs.map Peers.tries).sum

/-- `ngx_http_upstream_init_round_robin_peer`, and the limit on the tries. -/
def Request.init (gs : List Peers) (limit : ℕ) : Request where
  group := 0
  tried := ∅
  tries := triesOf gs limit
  phase := .ready
  limit := triesOf gs limit
  visits := []

/-- A request that is given the peer at `b`, `k` groups further on. -/
def Request.take (q : Request) (single : Bool) (k b : ℕ) : Request :=
  { q with
    group := q.group + k
    tried := if single then triedIn q.tried k else insert b (triedIn q.tried k)
    phase := .connected b
    visits := q.visits ++ [(q.group + k, b)] }

/-- The peer for a request, and the groups after that. -/
def System.getPeer (s : System) (q : Request) : Option (ℕ × ℕ) × List Peers :=
  let found := getFrom s.now q.tried (s.groups.drop q.group)
  (found.1, s.groups.take q.group ++ found.2)

def System.connect (s : System) (r : ℕ) (q : Request) : System :=
  match s.getPeer q with
  | (none, gs) => { s with groups := gs, requests := s.requests.set r { q with phase := .done } }
  | (some (k, b), gs) =>
    let single := (s.groups[q.group + k]?).any Peers.single
    { s with groups := gs, requests := s.requests.set r (q.take single k b) }

def System.release (s : System) (r : ℕ) (q : Request) (p : ℕ) (failed again : Bool) : System :=
  match s.groups[q.group]? with
  | none => s
  | some g =>
    let tries := g.triesLeft q.tries
    { s with
      groups := s.groups.modify q.group (Peers.free s.now failed p)
      requests := s.requests.set r
        { q with tries := tries, phase := if again = true ∧ tries ≠ 0 then .ready else .done } }

/-- One step; a request that cannot take it stays as it is. -/
def System.step (s : System) : Event → System
  | .tick d => { s with now := s.now + d }
  | .request limit => { s with requests := s.requests ++ [.init s.groups limit] }
  | .connect r =>
    match s.requests[r]? with
    | none => s
    | some q => if q.phase = .ready then s.connect r q else s
  | .release r failed again =>
    match s.requests[r]? with
    | none => s
    | some q =>
      match q.phase with
      | .connected p => s.release r q p failed again
      | _ => s

def System.run (s : System) (es : List Event) : System := es.foldl System.step s

/-- A peer that a request was given, and when. -/
structure Pick where
  group : ℕ
  place : ℕ
  time : ℤ

/-- The peer that is given in a step. -/
def System.picked (s : System) : Event → Option Pick
  | .connect r =>
    match s.requests[r]? with
    | none => none
    | some q => if q.phase = .ready then (s.getPeer q).1.map fun c => ⟨q.group + c.1, c.2, s.now⟩ else none
  | _ => none

/-- The peers that are given in a run. -/
def picks (s : System) : List Event → List Pick
  | [] => []
  | e :: es => (s.picked e).toList ++ picks (s.step e) es

/-- An upstream without requests. -/
def System.start (now : ℤ) (groups : List Peers) : System := ⟨now, groups, []⟩

/-! ### What a step can do -/

/-- The steps, with what is known about them. -/
inductive Move (s : System) : Event → Option Pick → System → Prop
  | tick (d : ℕ) : Move s (.tick d) none { s with now := s.now + d }
  | request (limit : ℕ) : Move s (.request limit) none { s with requests := s.requests ++ [.init s.groups limit] }
  | none (e : Event) : Move s e none s
  /-- No live upstreams. -/
  | refused (r : ℕ) (q : Request) (hq : s.requests[r]? = some q) (hready : q.phase = .ready)
      (hclosed : ∀ (k : ℕ) (g : Peers), s.groups[q.group + k]? = some g → g.Closed s.now (triedIn q.tried k)) :
      Move s (.connect r) none { s with requests := s.requests.set r { q with phase := .done } }
  | taken (r : ℕ) (q : Request) (k b : ℕ) (g : Peers) (p : Peer) (hq : s.requests[r]? = some q)
      (hready : q.phase = .ready) (hg : s.groups[q.group + k]? = some g) (hp : g.peer[b]? = some p)
      (hacc : g.accepts s.now (triedIn q.tried k) b p = true)
      (hbest : g.single = false → ∃ weight, IsBest s.now (triedIn q.tried k) g.peer (some (b, weight))) :
      Move s (.connect r) (some ⟨q.group + k, b, s.now⟩)
        { s with
          groups := s.groups.modify (q.group + k) (Peers.serve s.now (triedIn q.tried k) b)
          requests := s.requests.set r (q.take g.single k b) }
  | freed (r : ℕ) (q : Request) (p : ℕ) (failed again : Bool) (g : Peers) (hq : s.requests[r]? = some q)
      (hphase : q.phase = .connected p) (hg : s.groups[q.group]? = some g) :
      Move s (.release r failed again) none
        { s with
          groups := s.groups.modify q.group (Peers.free s.now failed p)
          requests := s.requests.set r
            { q with
              tries := g.triesLeft q.tries
              phase := if again = true ∧ g.triesLeft q.tries ≠ 0 then .ready else .done } }

theorem take_append_modify (gs : List Peers) (n k : ℕ) (f : Peers → Peers) :
    gs.take n ++ (gs.drop n).modify k f = gs.modify (n + k) f := by
  induction n generalizing gs with
  | zero => rw [List.take_zero, List.drop_zero, List.nil_append, Nat.zero_add]
  | succ n ih =>
    rcases gs with _ | ⟨g, gs⟩
    · simp
    · rw [List.take_succ_cons, List.drop_succ_cons, List.cons_append, ih, Nat.succ_add, List.modify_succ_cons]

/-- What a request is given. -/
theorem getPeer_system_cases (s : System) (q : Request) :
    (s.getPeer q = (none, s.groups) ∧
        ∀ (k : ℕ) (g : Peers), s.groups[q.group + k]? = some g → g.Closed s.now (triedIn q.tried k)) ∨
      ∃ (k b : ℕ) (g : Peers) (p : Peer),
        s.getPeer q = (some (k, b), s.groups.modify (q.group + k) (Peers.serve s.now (triedIn q.tried k) b)) ∧
        s.groups[q.group + k]? = some g ∧ g.peer[b]? = some p ∧ g.accepts s.now (triedIn q.tried k) b p = true ∧
        (g.single = false → ∃ weight, IsBest s.now (triedIn q.tried k) g.peer (some (b, weight))) ∧
        ∀ (k' : ℕ) (g' : Peers), k' < k → s.groups[q.group + k']? = some g' → g'.Closed s.now (triedIn q.tried k') := by
  unfold System.getPeer
  rcases getFrom_cases s.now (s.groups.drop q.group) q.tried with
    ⟨heq, hall⟩ | ⟨k, b, g, p, heq, hg, hp, hacc, hbest, hall⟩
  · refine Or.inl ⟨by simp only [heq, List.take_append_drop], fun k g hg => ?_⟩
    apply hall k g
    rw [List.getElem?_drop, hg]
  · rw [List.getElem?_drop] at hg
    refine Or.inr ⟨k, b, g, p, by simp only [heq, take_append_modify], hg, hp, hacc, hbest, fun k' g' hk' hg' => ?_⟩
    apply hall k' g' hk'
    rw [List.getElem?_drop, hg']

theorem move_step (s : System) (e : Event) : Move s e (s.picked e) (s.step e) := by
  cases e with
  | tick d => exact .tick d
  | request limit => exact .request limit
  | connect r =>
    rw [System.step, System.picked]
    rcases hq : s.requests[r]? with _ | q
    · exact .none _
    · by_cases hready : q.phase = .ready
      · simp only [if_pos hready, System.connect]
        rcases getPeer_system_cases s q with ⟨heq, hall⟩ | ⟨k, b, g, p, heq, hg, hp, hacc, hbest, -⟩
        · rw [heq]
          exact .refused r q hq hready hall
        · simp only [heq, hg, Option.any_some, Option.map_some]
          exact .taken r q k b g p hq hready hg hp hacc hbest
      · simp only [if_neg hready]
        exact .none _
  | release r failed again =>
    rw [System.step]
    rcases hq : s.requests[r]? with _ | q
    · exact .none _
    · rcases hphase : q.phase with _ | p | _
      · simp only [hphase]
        exact .none _
      · simp only [hphase, System.release]
        rcases hg : s.groups[q.group]? with _ | g
        · exact .none _
        · exact .freed r q p failed again g hq hphase hg
      · simp only [hphase]
        exact .none _

/-- A property that every step keeps holds after every run. -/
theorem run_induct {I : System → Prop} (hstep : ∀ s e o s', I s → Move s e o s' → I s') :
    ∀ (es : List Event) (s : System), I s → I (s.run es)
  | [], _, h => h
  | e :: es, s, h => run_induct hstep es (s.step e) (hstep s e _ _ h (move_step s e))

/-! ### Accounts -/

/-- The request has the peer at `i` of the group `k`. -/
def Request.has (q : Request) (k i : ℕ) : Bool := q.group = k ∧ q.phase = .connected i

/-- How many requests have the peer at `i` of the group `k`. -/
def held (rs : List Request) (k i : ℕ) : ℕ := rs.countP fun q => q.has k i

def peer? (gs : List Peers) (k i : ℕ) : Option Peer := (gs[k]?).bind fun g => g.peer[i]?

theorem held_set (k i : ℕ) {q : Request} (q' : Request) : ∀ (rs : List Request) (r : ℕ), rs[r]? = some q →
    held (rs.set r q') k i + (if q.has k i then 1 else 0) = held rs k i + if q'.has k i then 1 else 0
  | [], r, h => by simp at h
  | x :: rs, 0, h => by
    rw [List.getElem?_cons_zero, Option.some.injEq] at h
    simp only [held, List.set_cons_zero, List.countP_cons, h]
    omega
  | x :: rs, r + 1, h => by
    have ih := held_set k i q' rs r h
    simp only [held, List.set_cons_succ, List.countP_cons] at ih ⊢
    omega

/-- A peer after one group has changed. -/
theorem of_peer?_modify {gs : List Peers} {k : ℕ} {f : Peers → Peers} {h : Peers → ℕ → Peer → Peer}
    (hf : ∀ (g : Peers) (i : ℕ), (f g).peer[i]? = (g.peer[i]?).map (h g i)) {k' i : ℕ} {q : Peer}
    (hq : peer? (gs.modify k f) k' i = some q) :
    k ≠ k' ∧ peer? gs k' i = some q ∨ ∃ g p, k = k' ∧ gs[k]? = some g ∧ g.peer[i]? = some p ∧ q = h g i p := by
  rw [peer?, List.getElem?_modify] at hq
  by_cases hk : k = k'
  · subst hk
    rcases hg : gs[k]? with _ | g
    · simp [hg] at hq
    · simp only [hg, if_pos, Option.map_eq_map, Option.map_some, Option.bind_some, hf, Option.map_eq_some_iff] at hq
      obtain ⟨p, hp, rfl⟩ := hq
      exact Or.inr ⟨g, p, rfl, rfl, hp, rfl⟩
  · simp only [if_neg hk, Option.map_eq_map, Option.map_id_fun', id] at hq
    exact Or.inl ⟨hk, hq⟩

/-- A group after one has changed. -/
theorem of_getElem?_modify {gs : List Peers} {k k' : ℕ} {f : Peers → Peers} {g' : Peers}
    (h : (gs.modify k f)[k']? = some g') : k ≠ k' ∧ gs[k']? = some g' ∨ ∃ g, k = k' ∧ gs[k]? = some g ∧ g' = f g := by
  rw [List.getElem?_modify] at h
  by_cases hk : k = k'
  · subst hk
    simp only [if_true, Option.map_eq_map, Option.map_eq_some_iff] at h
    obtain ⟨g, hg, rfl⟩ := h
    exact Or.inr ⟨g, rfl, hg, rfl⟩
  · simp only [if_neg hk, Option.map_eq_map, Option.map_id_fun', id] at h
    exact Or.inl ⟨hk, h⟩

theorem peer?_of {gs : List Peers} {k i : ℕ} {g : Peers} {p : Peer} (hg : gs[k]? = some g) (hp : g.peer[i]? = some p) :
    peer? gs k i = some p := by
  rw [peer?, hg]
  exact hp

/-- What the numbers of the peers say. -/
structure Accounts (s : System) : Prop where
  /-- A peer counts the requests that have it. -/
  conns : ∀ k i p, peer? s.groups k i = some p → p.conns = held s.requests k i
  limit : ∀ k i p, peer? s.groups k i = some p → p.maxConns ≠ 0 → p.conns ≤ p.maxConns
  effective : ∀ k i p, peer? s.groups k i = some p → p.Sound
  /-- The current weights of a group add up to nothing. -/
  balance : ∀ (k : ℕ) (g : Peers), s.groups[k]? = some g → ∑ i ∈ Finset.range g.peer.length, credit g.peer i = 0

theorem Peers.accepts_spec {now : ℤ} {tried : Finset ℕ} {g : Peers} {i : ℕ} {p : Peer}
    (h : g.accepts now tried i p = true) :
    p.down = false ∧ p.full = false ∧ (g.single = false → i ∉ tried ∧ p.resting now = false) := by
  unfold Peers.accepts at h
  by_cases hs : g.single = true
  · rw [if_pos hs] at h
    simp only [Bool.and_eq_true, Bool.not_eq_true', Bool.or_eq_false_iff] at h
    refine ⟨h.2.1, h.2.2, fun hs' => ?_⟩
    rw [hs] at hs'
    cases hs'
  · rw [if_neg hs, usable, decide_eq_true_eq] at h
    exact ⟨h.2.1, h.2.2.2, fun _ => ⟨h.1, h.2.2.1⟩⟩

theorem Accounts.taken {s : System} (h : Accounts s) {r : ℕ} {q : Request} {k b : ℕ} {g : Peers} {p : Peer}
    (hq : s.requests[r]? = some q) (hready : q.phase = .ready) (hg : s.groups[q.group + k]? = some g)
    (hp : g.peer[b]? = some p) (hacc : g.accepts s.now (triedIn q.tried k) b p = true) :
    Accounts
      { s with
        groups := s.groups.modify (q.group + k) (Peers.serve s.now (triedIn q.tried k) b)
        requests := s.requests.set r (q.take g.single k b) } := by
  have hnone : ∀ k' i, q.has k' i = false := fun k' i => by simp [Request.has, hready]
  have hnew : ∀ k' i, (q.take g.single k b).has k' i = decide (q.group + k = k' ∧ b = i) := fun k' i => by
    simp [Request.has, Request.take]
  have hheld : ∀ k' i, held (s.requests.set r (q.take g.single k b)) k' i =
      held s.requests k' i + if q.group + k = k' ∧ b = i then 1 else 0 := by
    intro k' i
    have hset := held_set k' i (q.take g.single k b) s.requests r hq
    rw [hnone, hnew] at hset
    simpa using hset
  -- a peer of the group that was served comes from one by a round
  have hpeer : ∀ k' i p', peer? (s.groups.modify (q.group + k) (Peers.serve s.now (triedIn q.tried k) b)) k' i = some p' →
      q.group + k ≠ k' ∧ peer? s.groups k' i = some p' ∨
        ∃ p₀, q.group + k = k' ∧ g.peer[i]? = some p₀ ∧ p₀.Round s.now (b = i) g.single p' := by
    intro k' i p' hp'
    rcases of_peer?_modify (fun g i => getElem?_serve g b i) hp' with hother | ⟨g', p₀, hk, hg', hp₀, rfl⟩
    · exact Or.inl hother
    · rw [hg] at hg'
      obtain rfl := Option.some.inj hg'
      exact Or.inr ⟨p₀, hk, hp₀, turnOf_round g b i p₀⟩
  constructor
  · intro k' i p' hp'
    rw [hheld]
    rcases hpeer k' i p' hp' with ⟨hk, hold⟩ | ⟨p₀, rfl, hp₀, hround⟩
    · rw [h.conns k' i p' hold, if_neg (fun hand => hk hand.1), add_zero]
    · rw [hround.conns, h.conns _ _ p₀ (peer?_of hg hp₀)]
      simp
  · intro k' i p' hp' hmax
    rcases hpeer k' i p' hp' with ⟨hk, hold⟩ | ⟨p₀, rfl, hp₀, hround⟩
    · exact h.limit k' i p' hold hmax
    · rw [hround.same.maxConns] at hmax ⊢
      rw [hround.conns]
      have hle := h.limit _ _ p₀ (peer?_of hg hp₀) hmax
      by_cases hb : b = i
      · subst hb
        rw [hp] at hp₀
        obtain rfl := Option.some.inj hp₀
        have hfull := (Peers.accepts_spec hacc).2.1
        rw [Peer.full, decide_eq_false_iff_not] at hfull
        rw [decide_eq_true rfl, if_pos rfl]
        omega
      · rw [decide_eq_false hb]
        exact hle
  · intro k' i p' hp'
    rcases hpeer k' i p' hp' with ⟨hk, hold⟩ | ⟨p₀, rfl, hp₀, hround⟩
    · exact h.effective k' i p' hold
    · exact hround.sound (h.effective _ _ p₀ (peer?_of hg hp₀))
  · intro k' g' hg'
    rcases of_getElem?_modify hg' with ⟨-, hold⟩ | ⟨g₀, rfl, hg₀, rfl⟩
    · exact h.balance k' g' hold
    · rw [hg] at hg₀
      obtain rfl := Option.some.inj hg₀
      rw [Peers.balance_serve (List.getElem?_eq_some_iff.mp hp).1]
      exact h.balance _ g hg

theorem credit_free (now : ℤ) (failed : Bool) (g : Peers) (p i : ℕ) :
    credit (g.free now failed p).peer i = credit g.peer i := by
  rw [credit, credit, getElem?_free]
  rcases g.peer[i]? with _ | q
  · rfl
  · by_cases hpi : p = i
    · cases hs : g.single with
      | true => simp [hpi, Peer.disconnect]
      | false => simp [hpi, Peer.disconnect, Peer.report_currentWeight]
    · simp [hpi]

theorem length_free (now : ℤ) (failed : Bool) (g : Peers) (p : ℕ) :
    (g.free now failed p).peer.length = g.peer.length := List.length_modify ..

theorem Accounts.freed {s : System} (h : Accounts s) {r : ℕ} {q : Request} {p : ℕ} (failed : Bool)
    {q' : Request} (hq : s.requests[r]? = some q) (hphase : q.phase = .connected p) (hq' : ∀ k i, q'.has k i = false) :
    Accounts
      { s with
        groups := s.groups.modify q.group (Peers.free s.now failed p)
        requests := s.requests.set r q' } := by
  have hheld : ∀ k i, held (s.requests.set r q') k i + (if q.group = k ∧ p = i then 1 else 0) = held s.requests k i := by
    intro k i
    have hset := held_set k i q' s.requests r hq
    have hhas : q.has k i = decide (q.group = k ∧ p = i) := by simp [Request.has, hphase]
    rw [hq', hhas] at hset
    simpa using hset
  constructor
  · intro k i p' hp'
    have hcount := hheld k i
    rcases of_peer?_modify (getElem?_free s.now failed · p) hp' with ⟨hk, hold⟩ | ⟨g, p₀, rfl, hg, hp₀, rfl⟩
    · rw [if_neg (fun hand => hk hand.1), add_zero] at hcount
      rw [h.conns k i p' hold, hcount]
    · have hconns := h.conns _ _ p₀ (peer?_of hg hp₀)
      by_cases hpi : p = i
      · rw [if_pos ⟨rfl, hpi⟩] at hcount
        rw [if_pos hpi]
        have hless : (if g.single then p₀.disconnect else (p₀.report s.now failed).disconnect).conns = p₀.conns - 1 := by
          split
          · rfl
          · show (p₀.report s.now failed).conns - 1 = p₀.conns - 1
            rw [Peer.report_conns]
        rw [hless, hconns, ← hcount]
        rfl
      · rw [if_neg (fun hand => hpi hand.2), add_zero] at hcount
        rw [if_neg hpi, hconns, hcount]
  · intro k i p' hp' hmax
    rcases of_peer?_modify (getElem?_free s.now failed · p) hp' with ⟨-, hold⟩ | ⟨g, p₀, rfl, hg, hp₀, rfl⟩
    · exact h.limit k i p' hold hmax
    · have hle := h.limit _ _ p₀ (peer?_of hg hp₀)
      have hsame := Peer.report_same s.now failed p₀
      split_ifs at hmax ⊢
      · exact (Nat.sub_le _ _).trans (hle hmax)
      · show (p₀.report s.now failed).conns - 1 ≤ (p₀.report s.now failed).maxConns
        rw [Peer.report_conns, hsame.maxConns]
        exact (Nat.sub_le _ _).trans (hle (hsame.maxConns ▸ hmax))
      · exact hle hmax
  · intro k i p' hp'
    rcases of_peer?_modify (getElem?_free s.now failed · p) hp' with ⟨-, hold⟩ | ⟨g, p₀, rfl, hg, hp₀, rfl⟩
    · exact h.effective k i p' hold
    · have hsound := h.effective _ _ p₀ (peer?_of hg hp₀)
      split_ifs
      · exact hsound
      · exact hsound.report s.now failed
      · exact hsound
  · intro k g' hg'
    rcases of_getElem?_modify hg' with ⟨-, hold⟩ | ⟨g, rfl, hg, rfl⟩
    · exact h.balance k g' hold
    · rw [length_free]
      calc ∑ i ∈ Finset.range g.peer.length, credit (g.free s.now failed p).peer i
          = ∑ i ∈ Finset.range g.peer.length, credit g.peer i := Finset.sum_congr rfl fun i _ => credit_free ..
        _ = 0 := h.balance _ g hg

/-- A request that has no peer does not count, whatever else changes in it. -/
theorem Accounts.requests {s : System} (h : Accounts s) {rs : List Request}
    (hheld : ∀ k i, held rs k i = held s.requests k i) : Accounts { s with requests := rs } :=
  ⟨fun k i p hp => (h.conns k i p hp).trans (hheld k i).symm, h.limit, h.effective, h.balance⟩

theorem Accounts.step {s s' : System} {e : Event} {o : Option Pick} (h : Accounts s) (hmove : Move s e o s') :
    Accounts s' := by
  cases hmove with
  | tick d => exact ⟨h.conns, h.limit, h.effective, h.balance⟩
  | none => exact h
  | request limit =>
    apply h.requests
    intro k i
    rw [held, List.countP_append]
    simp [held, Request.has, Request.init]
  | refused r q hq hready hclosed =>
    apply h.requests
    intro k i
    have hset := held_set k i { q with phase := .done } s.requests r hq
    simpa [Request.has, hready] using hset
  | taken r q k b g p hq hready hg hp hacc hbest => exact h.taken hq hready hg hp hacc
  | freed r q p failed again g hq hphase hg =>
    apply h.freed failed hq hphase
    intro k i
    unfold Request.has
    split <;> simp

theorem of_mem_group {single : Bool} {servers : List Server} {p : Peer} (hp : p ∈ (group single servers).peer) :
    ∃ v ∈ servers, p = v.peer := by
  obtain ⟨v, hv, hp⟩ := List.mem_flatMap.mp hp
  exact ⟨v, hv, (List.mem_replicate.mp hp).2⟩

/-- The groups of an upstream hold the peers of its servers. -/
theorem of_mem_init {servers : List Server} {gs : List Peers} (h : initRoundRobin servers = some gs) {g : Peers}
    (hg : g ∈ gs) : ∃ single ss, g = group single ss ∧ ss ⊆ servers ∧ (single = true → (ss.map Server.naddrs).sum = 1) := by
  simp only [initRoundRobin] at h
  split_ifs at h
  · obtain rfl := Option.some.inj h
    refine ⟨_, _, List.mem_singleton.mp hg, fun v hv => List.mem_of_mem_filter hv, ?_⟩
    exact fun hs => of_decide_eq_true hs
  · obtain rfl := Option.some.inj h
    rcases List.mem_cons.mp hg with hg | hg
    · exact ⟨false, _, hg, fun v hv => List.mem_of_mem_filter hv, fun h => absurd h Bool.false_ne_true⟩
    · exact ⟨false, _, List.mem_singleton.mp hg, fun v hv => List.mem_of_mem_filter hv,
        fun h => absurd h Bool.false_ne_true⟩

theorem peer_of_init {servers : List Server} {gs : List Peers} (h : initRoundRobin servers = some gs) {k i : ℕ} {p : Peer}
    (hp : peer? gs k i = some p) : ∃ v ∈ servers, p = v.peer := by
  obtain ⟨g, hg, hp⟩ := Option.bind_eq_some_iff.mp hp
  obtain ⟨single, ss, rfl, hsub, -⟩ := of_mem_init h (List.mem_of_getElem? hg)
  obtain ⟨v, hv, hpeer⟩ := of_mem_group (List.mem_of_getElem? hp)
  exact ⟨v, hsub hv, hpeer⟩

theorem accounts_start {servers : List Server} {gs : List Peers} (h : initRoundRobin servers = some gs) (now : ℤ) :
    Accounts (.start now gs) := by
  constructor
  · intro k i p hp
    obtain ⟨v, -, rfl⟩ := peer_of_init h hp
    rfl
  · intro k i p hp _
    obtain ⟨v, -, rfl⟩ := peer_of_init h hp
    exact Nat.zero_le _
  · intro k i p hp
    obtain ⟨v, -, rfl⟩ := peer_of_init h hp
    exact ⟨Int.natCast_nonneg _, le_rfl⟩
  · intro k g hg
    apply Finset.sum_eq_zero
    intro i _
    rw [credit]
    rcases hp : g.peer[i]? with _ | p
    · rfl
    · obtain ⟨v, -, rfl⟩ := peer_of_init h (peer?_of hg hp)
      rfl

/-- Two servers, one of them allowed two connections, and a spare one. -/
def threeServers : List Server :=
  [⟨1, 5, 2, 1, 10, false, false⟩, ⟨1, 1, 0, 1, 10, false, false⟩, ⟨1, 1, 0, 1, 10, false, true⟩]

/-- Two requests, of which the first one fails and is given another peer. -/
def someEvents : List Event :=
  [.request 0, .request 0, .connect 0, .connect 1, .release 0 true true, .tick 3, .connect 0, .release 1 false false]

end Nginx
end OpsScripts
