/-
# What a request is given

A request may ask for a peer several times. In every run it is given no peer
twice, none that is down, no primary one after a backup one, and no more than
it came with tries (`visits_run`); and it is told that there are no live
upstreams exactly if there are none for it (`refused_iff`).

Key definitions: `SameGroups`, `Visited`.
Key theorems: `Visited.fresh`, `Visited.step`, `not_accepts_iff`.
-/
import OpsScripts.Nginx.Balancer

namespace OpsScripts
namespace Nginx

/-! ### The groups stay what they are -/

/-- The same peers of the same servers, whatever has become of them. -/
structure SameGroups (gs gs' : List Peers) : Prop where
  group : ∀ (k : ℕ) (g' : Peers), gs'[k]? = some g' →
    ∃ g, gs[k]? = some g ∧ g.single = g'.single ∧ g.peer.length = g'.peer.length
  peer : ∀ k i p, peer? gs k i = some p → ∃ p', peer? gs' k i = some p' ∧ p.SameServer p'

theorem sameGroups_modify (gs : List Peers) (k : ℕ) {f : Peers → Peers} {h : Peers → ℕ → Peer → Peer}
    (hf : ∀ (g : Peers) (i : ℕ), (f g).peer[i]? = (g.peer[i]?).map (h g i))
    (hg : ∀ g, g.single = (f g).single ∧ g.peer.length = (f g).peer.length)
    (hsame : ∀ g i p, Peer.SameServer p (h g i p)) : SameGroups gs (gs.modify k f) := by
  constructor
  · intro k' g' hg'
    rcases of_getElem?_modify hg' with ⟨-, hold⟩ | ⟨g, rfl, hold, rfl⟩
    · exact ⟨g', hold, rfl, rfl⟩
    · exact ⟨g, hold, hg g⟩
  · intro k' i p hp
    obtain ⟨g, hgk, hpi⟩ := Option.bind_eq_some_iff.mp hp
    by_cases hk : k = k'
    · subst hk
      refine ⟨h g i p, ?_, hsame g i p⟩
      apply peer?_of (g := f g)
      · rw [List.getElem?_modify, hgk]
        simp
      · rw [hf, hpi]
        rfl
    · refine ⟨p, ?_, ⟨rfl, rfl, rfl, rfl, rfl⟩⟩
      refine peer?_of (g := g) ?_ hpi
      rw [List.getElem?_modify, hgk]
      simp [hk]

theorem sameGroups_serve (gs : List Peers) (k : ℕ) (now : ℤ) (tried : Finset ℕ) (b : ℕ) :
    SameGroups gs (gs.modify k (Peers.serve now tried b)) :=
  sameGroups_modify gs k (fun g i => getElem?_serve g b i) (fun g => ⟨rfl, (length_serve g b).symm⟩)
    fun g i p => (turnOf_round g b i p).same

theorem sameGroups_free (gs : List Peers) (k : ℕ) (now : ℤ) (failed : Bool) (p : ℕ) :
    SameGroups gs (gs.modify k (Peers.free now failed p)) := by
  refine sameGroups_modify gs k (getElem?_free now failed · p) (fun g => ⟨rfl, (length_free now failed g p).symm⟩)
    fun g i q => ?_
  have hsame := Peer.report_same now failed q
  split_ifs
  · exact ⟨rfl, rfl, rfl, rfl, rfl⟩
  · exact ⟨hsame.weight, hsame.maxConns, hsame.maxFails, hsame.failTimeout, hsame.down⟩
  · exact ⟨rfl, rfl, rfl, rfl, rfl⟩

theorem SameGroups.refl (gs : List Peers) : SameGroups gs gs :=
  ⟨fun _ g hg => ⟨g, hg, rfl, rfl⟩, fun _ _ p hp => ⟨p, hp, rfl, rfl, rfl, rfl, rfl⟩⟩

theorem SameGroups.trans {gs gs' gs'' : List Peers} (h : SameGroups gs gs') (h' : SameGroups gs' gs'') :
    SameGroups gs gs'' := by
  constructor
  · intro k g'' hg''
    obtain ⟨g', hg', hsingle', hlen'⟩ := h'.group k g'' hg''
    obtain ⟨g, hg, hsingle, hlen⟩ := h.group k g' hg'
    exact ⟨g, hg, hsingle.trans hsingle', hlen.trans hlen'⟩
  · intro k i p hp
    obtain ⟨p', hp', hsame⟩ := h.peer k i p hp
    obtain ⟨p'', hp'', hsame'⟩ := h'.peer k i p' hp'
    exact ⟨p'', hp'', hsame.trans hsame'⟩

theorem sameGroups_run (now : ℤ) (gs : List Peers) (es : List Event) :
    SameGroups gs ((System.start now gs).run es).groups := by
  refine run_induct (I := fun s => SameGroups gs s.groups) (fun s e o s' h hmove => ?_) es _ (.refl gs)
  cases hmove with
  | tick d => exact h
  | none => exact h
  | request limit => exact h
  | refused r q hq hready hclosed => exact h
  | taken r q k b g p hq hready hg hp hacc hbest => exact h.trans (sameGroups_serve ..)
  | freed r q p failed again g hq hphase hg => exact h.trans (sameGroups_free ..)

/-! ### What is known about a request -/

/-- What is known about the peers that a request has been given. -/
structure Visited (gs : List Peers) (q : Request) : Prop where
  once : q.visits.Nodup
  order : q.visits.Pairwise fun a b => a.1 ≤ b.1
  behind : ∀ v ∈ q.visits, v.1 ≤ q.group
  /-- Those of its group are marked; the only one of a group is given once,
  because the request has no tries left then. -/
  seen : ∀ (i : ℕ) (g : Peers), (q.group, i) ∈ q.visits → gs[q.group]? = some g →
    g.single = false ∧ i ∈ q.tried ∨ g.single = true ∧ q.phase ≠ .ready
  tried : ∀ i ∈ q.tried, (q.group, i) ∈ q.visits
  live : ∀ v ∈ q.visits, ∃ p, peer? gs v.1 v.2 = some p ∧ p.down = false
  count : q.visits.length ≤ max q.limit 1
  left : q.phase ≠ .done → q.visits.length + q.tries ≤ q.limit + if q.phase = .ready then 0 else 1
  more : q.phase = .ready → q.visits = [] ∨ q.tries ≠ 0

theorem Visited.groups {gs gs' : List Peers} {q : Request} (h : Visited gs q) (hsame : SameGroups gs gs') :
    Visited gs' q := by
  refine ⟨h.once, h.order, h.behind, fun i g' hv hg' => ?_, h.tried, fun v hv => ?_, h.count, h.left, h.more⟩
  · obtain ⟨g, hg, hsingle, -⟩ := hsame.group _ _ hg'
    rw [← hsingle]
    exact h.seen i g hv hg
  · obtain ⟨p, hp, hdown⟩ := h.live v hv
    obtain ⟨p', hp', hs⟩ := hsame.peer _ _ p hp
    exact ⟨p', hp', hs.down.trans hdown⟩

theorem visited_init (gs : List Peers) (limit : ℕ) : Visited gs (.init gs limit) where
  once := List.nodup_nil
  order := .nil
  behind v hv := absurd hv List.not_mem_nil
  seen i g hv := absurd hv List.not_mem_nil
  tried i hi := absurd hi (Finset.notMem_empty i)
  live v hv := absurd hv List.not_mem_nil
  count := Nat.zero_le _
  left _ := by simp [Request.init]
  more _ := Or.inl rfl

theorem Visited.refused {gs : List Peers} {q : Request} (h : Visited gs q) : Visited gs { q with phase := .done } where
  once := h.once
  order := h.order
  behind := h.behind
  seen i g hv hg := by
    rcases h.seen i g hv hg with hmarked | ⟨hsingle, -⟩
    · exact Or.inl hmarked
    · exact Or.inr ⟨hsingle, by simp⟩
  tried := h.tried
  live := h.live
  count := h.count
  left hne := absurd rfl hne
  more hready := by cases hready

theorem Visited.freed {gs : List Peers} {q : Request} (h : Visited gs q) {p : ℕ} (hphase : q.phase = .connected p)
    {g : Peers} (hg : gs[q.group]? = some g) (again : Bool) :
    Visited gs
      { q with
        tries := g.triesLeft q.tries
        phase := if again = true ∧ g.triesLeft q.tries ≠ 0 then .ready else .done } := by
  have hsum := h.left (by rw [hphase]; simp)
  rw [hphase, if_neg (by simp)] at hsum
  refine ⟨h.once, h.order, h.behind, fun i g' hv hg' => ?_, h.tried, h.live, h.count, fun hne => ?_, fun hready => ?_⟩
  · obtain rfl := Option.some.inj (hg.symm.trans hg')
    rcases h.seen i g hv hg with hmarked | ⟨hsingle, -⟩
    · exact Or.inl hmarked
    · refine Or.inr ⟨hsingle, ?_⟩
      simp [Peers.triesLeft, hsingle]
  · by_cases hgo : again = true ∧ g.triesLeft q.tries ≠ 0
    · have hless : g.triesLeft q.tries + 1 ≤ q.tries := by
        have hne := hgo.2
        unfold Peers.triesLeft at hne ⊢
        split at hne <;> split <;> simp_all
        omega
      simp only [if_pos hgo, if_true]
      omega
    · simp [hgo] at hne
  · by_cases hgo : again = true ∧ g.triesLeft q.tries ≠ 0
    · exact Or.inr hgo.2
    · simp [hgo] at hready

/-- A peer that a request is given is of a later group, or unmarked, or the
only one. -/
theorem Visited.fresh {s : System} {q : Request} (h : Visited s.groups q) (hready : q.phase = .ready) {k b : ℕ} {g : Peers}
    {p : Peer} (hg : s.groups[q.group + k]? = some g) (hacc : g.accepts s.now (triedIn q.tried k) b p = true) :
    (q.group + k, b) ∉ q.visits := by
  intro hv
  have hbehind := h.behind _ hv
  obtain rfl : k = 0 := by
    simp only at hbehind
    omega
  rcases h.seen b g hv hg with ⟨hmany, hin⟩ | ⟨-, hphase⟩
  · exact ((Peers.accepts_spec hacc).2.2 hmany).1 hin
  · exact hphase hready

theorem Visited.of_mem_triedIn {gs : List Peers} {q : Request} (h : Visited gs q) {k i : ℕ} (hi : i ∈ triedIn q.tried k) :
    (q.group + k, i) ∈ q.visits := by
  unfold triedIn at hi
  by_cases hk : k = 0
  · subst hk
    rw [if_pos rfl] at hi
    exact h.tried i hi
  · rw [if_neg hk] at hi
    exact absurd hi (Finset.notMem_empty i)

theorem Visited.taken {s : System} {q : Request} (h : Visited s.groups q) (hready : q.phase = .ready) {k b : ℕ} {g : Peers}
    {p : Peer} (hg : s.groups[q.group + k]? = some g) (hp : g.peer[b]? = some p)
    (hacc : g.accepts s.now (triedIn q.tried k) b p = true) : Visited s.groups (q.take g.single k b) := by
  have hdown := (Peers.accepts_spec hacc).1
  have hnew := h.fresh hready hg hacc
  have hold : ∀ v ∈ q.visits, v.1 ≤ q.group + k := fun v hv => (h.behind v hv).trans (Nat.le_add_right _ _)
  have hsum := h.left (by rw [hready]; simp)
  rw [hready, if_pos rfl] at hsum
  constructor
  · exact List.nodup_append.mpr ⟨h.once, List.nodup_singleton _, fun a ha b' hb' heq => by
      rw [List.mem_singleton.mp hb'] at heq
      exact hnew (heq ▸ ha)⟩
  · exact List.pairwise_append.mpr ⟨h.order, List.pairwise_singleton _ _, fun a ha b' hb' => by
      rw [List.mem_singleton.mp hb']
      exact hold a ha⟩
  · intro v hv
    rcases List.mem_append.mp hv with hv | hv
    · exact hold v hv
    · rw [List.mem_singleton.mp hv]
      exact le_rfl
  · intro i g' hv hg'
    obtain rfl := Option.some.inj (hg.symm.trans hg')
    cases hsingle : g.single with
    | true => exact Or.inr ⟨rfl, by simp [Request.take]⟩
    | false =>
      refine Or.inl ⟨rfl, ?_⟩
      show i ∈ insert b (triedIn q.tried k)
      rcases List.mem_append.mp hv with hv | hv
      · have hk : k = 0 := by
          have hbehind := h.behind _ hv
          simp only [Request.take] at hbehind
          omega
        subst hk
        rcases h.seen i g hv hg with ⟨-, hin⟩ | ⟨hone, -⟩
        · exact Finset.mem_insert_of_mem hin
        · rw [hsingle] at hone
          cases hone
      · have heq := (Prod.mk.injEq .. ▸ List.mem_singleton.mp hv : _ ∧ i = b).2
        rw [heq]
        exact Finset.mem_insert_self _ _
  · intro i hi
    have hi : i = b ∨ i ∈ triedIn q.tried k := by
      simp only [Request.take] at hi
      split at hi
      · exact Or.inr hi
      · exact Finset.mem_insert.mp hi
    rcases hi with rfl | hi
    · exact List.mem_append_right _ (List.mem_singleton.mpr rfl)
    · exact List.mem_append_left _ (h.of_mem_triedIn hi)
  · intro v hv
    rcases List.mem_append.mp hv with hv | hv
    · exact h.live v hv
    · rw [List.mem_singleton.mp hv]
      exact ⟨p, peer?_of hg hp, hdown⟩
  · show (q.visits ++ [(q.group + k, b)]).length ≤ max q.limit 1
    rw [List.length_append, List.length_singleton]
    rcases h.more hready with hnone | hleft
    · rw [hnone]
      exact le_max_right _ _
    · exact le_trans (by omega) (le_max_left q.limit 1)
  · intro _
    show (q.visits ++ [(q.group + k, b)]).length + q.tries ≤ q.limit + if Phase.connected b = .ready then 0 else 1
    rw [List.length_append, List.length_singleton, if_neg (by simp)]
    omega
  · intro hphase
    cases hphase

theorem Visited.step {s s' : System} {e : Event} {o : Option Pick} (h : ∀ q ∈ s.requests, Visited s.groups q)
    (hmove : Move s e o s') : ∀ q ∈ s'.requests, Visited s'.groups q := by
  cases hmove with
  | tick d => exact h
  | none => exact h
  | request limit =>
    intro q hq
    rcases List.mem_append.mp hq with hq | hq
    · exact h q hq
    · rw [List.mem_singleton.mp hq]
      exact visited_init s.groups limit
  | refused r q hq hready hclosed =>
    intro q' hq'
    rcases List.mem_or_eq_of_mem_set hq' with hq' | rfl
    · exact h q' hq'
    · exact (h q (List.mem_of_getElem? hq)).refused
  | taken r q k b g p hq hready hg hp hacc hbest =>
    have hsame := sameGroups_serve s.groups (q.group + k) s.now (triedIn q.tried k) b
    intro q' hq'
    rcases List.mem_or_eq_of_mem_set hq' with hq' | rfl
    · exact (h q' hq').groups hsame
    · exact ((h q (List.mem_of_getElem? hq)).taken hready hg hp hacc).groups hsame
  | freed r q p failed again g hq hphase hg =>
    have hsame := sameGroups_free s.groups q.group s.now failed p
    intro q' hq'
    rcases List.mem_or_eq_of_mem_set hq' with hq' | rfl
    · exact (h q' hq').groups hsame
    · exact ((h q (List.mem_of_getElem? hq)).freed hphase hg again).groups hsame

theorem visited_run (now : ℤ) (gs : List Peers) (es : List Event) :
    ∀ q ∈ ((System.start now gs).run es).requests, Visited ((System.start now gs).run es).groups q :=
  run_induct (I := fun s => ∀ q ∈ s.requests, Visited s.groups q) (fun _ _ _ _ h hmove => Visited.step h hmove) es _
    (List.forall_mem_nil _)

/-- A group that counts as single has one peer, in every run. -/
theorem length_single {servers : List Server} {gs : List Peers} (hinit : initRoundRobin servers = some gs) (now : ℤ)
    (es : List Event) {k : ℕ} {g : Peers} (hg : ((System.start now gs).run es).groups[k]? = some g)
    (hsingle : g.single = true) : g.peer.length = 1 := by
  obtain ⟨g₀, hg₀, hs, hlen⟩ := (sameGroups_run now gs es).group k g hg
  obtain ⟨single, ss, rfl, -, hone⟩ := of_mem_init hinit (List.mem_of_getElem? hg₀)
  calc g.peer.length = (group single ss).peer.length := hlen.symm
    _ = (ss.map Server.naddrs).sum := by simp [group, List.length_flatMap]
    _ = 1 := hone (hs.trans hsingle)

/-- A peer that is not taken. -/
theorem not_accepts_iff {now : ℤ} {tried : Finset ℕ} {g : Peers} {i : ℕ} {p : Peer}
    (hi : g.single = true → i = 0) : g.accepts now tried i p = false ↔
      p.down = true ∨ p.full = true ∨ g.single = false ∧ (p.resting now = true ∨ i ∈ tried) := by
  unfold Peers.accepts
  cases hs : g.single with
  | true =>
    rw [if_pos rfl, hi hs]
    cases p.down <;> simp
  | false =>
    rw [if_neg Bool.false_ne_true, usable, decide_eq_false_iff_not]
    cases p.down <;> cases p.full <;> cases p.resting now <;> simp

/-- **A request is told that there are no live upstreams exactly if there are
none for it**: in its group and those behind it, every peer is down, full,
resting, or has been given to it before. Then nothing else changes. -/
theorem refused_iff {servers : List Server} {gs : List Peers} (hinit : initRoundRobin servers = some gs) (now : ℤ)
    (es : List Event) {s : System} (hs : s = (System.start now gs).run es) {r : ℕ} {q : Request}
    (hq : s.requests[r]? = some q) (hready : q.phase = .ready) :
    (s.step (.connect r) = { s with requests := s.requests.set r { q with phase := .done } } ↔
      ∀ (k : ℕ) (g : Peers) (i : ℕ) (p : Peer), q.group ≤ k → s.groups[k]? = some g → g.peer[i]? = some p →
        p.down = true ∨ p.full = true ∨ g.single = false ∧ (p.resting s.now = true ∨ (k, i) ∈ q.visits)) := by
  have hvisited : Visited s.groups q := hs ▸ visited_run now gs es q (hs ▸ List.mem_of_getElem? hq)
  have hplace : ∀ {k : ℕ} {g : Peers} {i : ℕ} {p : Peer}, s.groups[k]? = some g → g.peer[i]? = some p →
      g.single = true → i = 0 := by
    intro k g i p hg hp hsingle
    have hlen := length_single hinit now es (hs ▸ hg) hsingle
    have hi := (List.getElem?_eq_some_iff.mp hp).1
    omega
  have hstep : s.step (.connect r) = s.connect r q := by simp only [System.step, hq, if_pos hready]
  rw [hstep, System.connect]
  rcases getPeer_system_cases s q with ⟨heq, hall⟩ | ⟨k, b, g, p, heq, hg, hp, hacc, -, -⟩
  · simp only [heq, true_iff]
    intro k g i p hk hg hp
    obtain ⟨j, rfl⟩ := Nat.exists_eq_add_of_le hk
    rcases (not_accepts_iff (hplace hg hp)).mp (hall j g hg i p hp) with h | h | ⟨hmany, h | h⟩
    · exact Or.inl h
    · exact Or.inr (Or.inl h)
    · exact Or.inr (Or.inr ⟨hmany, Or.inl h⟩)
    · exact Or.inr (Or.inr ⟨hmany, Or.inr (hvisited.of_mem_triedIn h)⟩)
  · simp only [heq]
    constructor
    · intro hsame
      have hr := (List.getElem?_eq_some_iff.mp hq).1
      have hphase := congrArg (fun t : System => (t.requests[r]?).map Request.phase) hsame
      simp [Request.take, hr] at hphase
    · intro hnone
      obtain ⟨hdown, hfull, hmarks⟩ := Peers.accepts_spec hacc
      rcases hnone _ g b p (Nat.le_add_right _ k) hg hp with h | h | ⟨hmany, h | h⟩
      · rw [hdown] at h
        cases h
      · rw [hfull] at h
        cases h
      · rw [(hmarks hmany).2] at h
        cases h
      · exact absurd h (hvisited.fresh hready hg hacc)

/-- A request that has failed at the first peer, and asks for another one. -/
def onceFailed : Request := ⟨0, {0}, 2, .ready, 3, [(0, 0)]⟩

def onceFailedSystem : System :=
  (System.start 0 [group false (threeServers.take 2), group false (threeServers.drop 2)]).run
    [.request 0, .connect 0, .release 0 true true]

theorem refused_iff_onceFailed :
    (onceFailedSystem.step (.connect 0) =
        { onceFailedSystem with requests := onceFailedSystem.requests.set 0 { onceFailed with phase := .done } } ↔
      ∀ (k : ℕ) (g : Peers) (i : ℕ) (p : Peer), onceFailed.group ≤ k → onceFailedSystem.groups[k]? = some g →
        g.peer[i]? = some p → p.down = true ∨ p.full = true ∨
          g.single = false ∧ (p.resting onceFailedSystem.now = true ∨ (k, i) ∈ onceFailed.visits)) :=
  @refused_iff threeServers _ rfl 0 [.request 0, .connect 0, .release 0 true true] onceFailedSystem rfl 0 onceFailed
    rfl rfl

end Nginx
end OpsScripts
