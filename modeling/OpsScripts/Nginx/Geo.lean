/-
# The networks of a geo block

`ngx_http_geo_module.c` for a block without `ranges`: every entry is a network
and a value, `default` and a value, or `delete` and a network. The networks
are read by `ngx_ptocidr` and kept in a radix tree, and the variable of the
block is looked up there by the address of the client.

For every block, the variable is what the last entry of the longest network
with the address says (`geo_lookup`), and a block is refused for a network that
cannot be read only. A network in the usual form is read as such, but
`255.255.255.255/32` is not: `ngx_inet_addr` has no other value for it than
the one for an error (`network_read`).

This is a build without IPv6. Other directives of the block (`include`,
`proxy`, `proxy_recursive`) do not come here.

Key definitions: `ptocidr`, `cidrAdd`, `geoCidr`, `geoBlock`, `valueOf`.
Key theorems: `stands_geoCidr`, `geo_lookup`, `network_read`.
-/
import OpsScripts.Inet
import OpsScripts.Nginx.Radix

namespace OpsScripts
namespace Nginx

open Prefixes

/-! ### Reading a network -/

/-- `INADDR_NONE`. -/
def inaddrNone : BitVec 32 := 0xffffffff#32

/-- The loop of `ngx_inet_addr`, in host order: the address so far, the octet and the number of dots. -/
def inetAddr : BitVec 32 → ℕ → ℕ → Text → BitVec 32
  | addr, octet, n, [] => if n = 3 then addr <<< 8 + BitVec.ofNat 32 octet else inaddrNone
  | addr, octet, n, c :: t =>
    if c.isDigit then
      if 255 < octet * 10 + (c.toNat - 48) then inaddrNone else inetAddr addr (octet * 10 + (c.toNat - 48)) n t
    else if c = '.' then inetAddr (addr <<< 8 + BitVec.ofNat 32 octet) 0 (n + 1) t
    else inaddrNone

/-- `NGX_MAX_INT_T_VALUE` -/
def maxInt : ℕ := 9223372036854775807

/-- The loop of `ngx_atoi`. -/
def atoiFrom : ℕ → Text → Option ℕ
  | value, [] => some value
  | value, c :: t =>
    if !c.isDigit then none
    else if maxInt / 10 ≤ value ∧ (maxInt / 10 < value ∨ maxInt % 10 < c.toNat - 48) then none
    else atoiFrom (value * 10 + (c.toNat - 48)) t

/-- `ngx_atoi`. -/
def atoi (t : Text) : Option ℕ := if t = [] then none else atoiFrom 0 t

/-- `ngx_cidr_t`: the mask has `shift` bits. -/
structure Cidr where
  addr : BitVec 32
  shift : ℕ
  shift_le : shift ≤ 32

/-- The mask of `shift` bits. A shift by 32 is left out. -/
def maskBits (shift : ℕ) : BitVec 32 := if shift = 0 then 0 else 0xffffffff#32 <<< (32 - shift)

/-- `ngx_ptocidr`, with `false` for `NGX_DONE`: the address has bits outside the mask. -/
def ptocidr (text : Text) : Option (Cidr × Bool) :=
  let addr := inetAddr 0 0 0 (text.takeWhile (· ≠ '/'))
  if addr = inaddrNone then none
  else match text.dropWhile (· ≠ '/') with
    | [] => some (⟨addr, 32, le_rfl⟩, true)
    | _ :: mask => (atoi mask).bind fun shift =>
      if h : shift ≤ 32 then
        some (⟨addr &&& maskBits shift, shift, h⟩, decide (addr = addr &&& maskBits shift))
      else none

/-- `ngx_http_geo_cidr_value`. -/
def cidrValue (net : Text) : Option (Cidr × Bool) :=
  if net = "255.255.255.255".toList then some (⟨inaddrNone, 32, le_rfl⟩, true) else ptocidr net

/-! ### The entries of a block -/

/-- What is logged while a block is read. -/
inductive Message
  | lowBits (net : Text)
  | duplicate (net value : Text) (old : Option Text)
  | noNetwork (net : Text)
  | invalidNetwork (net : Text)
  | invalidTree
  deriving DecidableEq

def Message.text : Message → Text
  | .lowBits net => "low address bits of ".toList ++ net ++ " are meaningless".toList
  | .duplicate net value old =>
    "duplicate network \"".toList ++ net ++ "\", value: \"".toList ++ value ++ "\", old value: \"".toList ++
      old.getD [] ++ "\"".toList
  | .noNetwork net => "no network \"".toList ++ net ++ "\" to delete".toList
  | .invalidNetwork net => "invalid network \"".toList ++ net ++ "\"".toList
  | .invalidTree => "invalid radix tree".toList

/-- `ngx_http_geo_conf_ctx_t`: the tree, and what was logged. -/
structure Geo where
  tree : Radix Text
  log : List Message

def Geo.say (g : Geo) (m : Message) : Geo := { g with log := g.log ++ [m] }

/-- An entry is taken, or the configuration is refused, or the process dies. -/
inductive Loaded
  | ok (g : Geo)
  | failed (log : List Message)
  | crash

def Cidr.mask (c : Cidr) : BitVec 32 := maskBits c.shift

/-- The bits of the network. -/
def Cidr.path (c : Cidr) : List Bool := Radix.path c.addr.toNat c.mask.toNat

/-- The lookup of an address. -/
def Geo.find (g : Geo) (addr : BitVec 32) : Option Text := Radix.find g.tree (bits 32 addr.toNat) none

/-- The rest of `ngx_http_geo_cidr_add` after `NGX_BUSY`. -/
def cidrReplace (g : Geo) (c : Cidr) (value : Text) : Loaded :=
  match Radix.delete c.path g.tree with
  | .ok t =>
    match Radix.insert c.path (some value) t with
    | some t => .ok { g with tree := t }
    | none => .failed g.log
  | .error => .failed (g.say .invalidTree).log
  | .crash => .crash

/-- `ngx_http_geo_cidr_add`. -/
def cidrAdd (g : Geo) (c : Cidr) (value net : Text) : Loaded :=
  match Radix.insert c.path (some value) g.tree with
  | some t => .ok { g with tree := t }
  | none => cidrReplace (g.say (.duplicate net value (g.find c.addr))) c value

/-- The branch of `ngx_http_geo_cidr` for `del`. -/
def cidrDelete (g : Geo) (c : Cidr) (net : Text) : Loaded :=
  match Radix.delete c.path g.tree with
  | .ok t => .ok { g with tree := t }
  | .error => .ok (g.say (.noNetwork net))
  | .crash => .crash

/-- The network of `default`. -/
def everything : Cidr := ⟨0, 0, Nat.zero_le _⟩

/-- A network that was read: its low bits may be worth a warning. -/
def Geo.read (g : Geo) (net : Text) (tidy : Bool) : Geo := if tidy then g else g.say (.lowBits net)

/-- `ngx_http_geo_cidr`. -/
def geoCidr (g : Geo) (e : Text × Text) : Loaded :=
  if e.1 = "default".toList then cidrAdd g everything e.2 e.1
  else if e.1 = "delete".toList then
    match cidrValue e.2 with
    | none => .failed (g.say (.invalidNetwork e.2)).log
    | some r => cidrDelete (g.read e.2 r.2) r.1 e.2
  else
    match cidrValue e.1 with
    | none => .failed (g.say (.invalidNetwork e.1)).log
    | some r => cidrAdd (g.read e.1 r.2) r.1 e.2 e.1

/-- The entries one after the other. -/
def load (g : Geo) : List (Text × Text) → Loaded
  | [] => .ok g
  | e :: es =>
    match geoCidr g e with
    | .ok g => load g es
    | .failed log => .failed log
    | .crash => .crash

/-- The end of `ngx_http_geo_block`: the root gets the empty value unless it has one. -/
def Geo.close (g : Geo) : Geo := { g with tree := (Radix.insert [] (some []) g.tree).getD g.tree }

/-- `ngx_http_geo_block`, with `n` bits of the tree made at once. -/
def geoBlock (n : ℕ) (es : List (Text × Text)) : Loaded :=
  match load ⟨Radix.create Text n, []⟩ es with
  | .ok g => .ok g.close
  | .failed log => .failed log
  | .crash => .crash

/-! ### What a block says -/

/-- The network of an entry, and the value it gets if it is not deleted. -/
def meaning (e : Text × Text) : Option (Cidr × Option Text) :=
  if e.1 = "default".toList then some (everything, some e.2)
  else if e.1 = "delete".toList then (cidrValue e.2).map fun r => (r.1, none)
  else (cidrValue e.1).map fun r => (r.1, some e.2)

/-- It is the network of `s` bits with an address. -/
def Cidr.has (c : Cidr) (s : ℕ) (a : BitVec 32) : Bool :=
  c.shift = s ∧ a.toNat / 2 ^ (32 - s) = c.addr.toNat / 2 ^ (32 - s)

/-- What the last entry of the network of `s` bits with an address says. -/
def valueOf (es : List (Text × Text)) (s : ℕ) (a : BitVec 32) : Option Text :=
  ((es.filterMap meaning).filter fun m => m.1.has s a).getLast?.bind Prod.snd

/-- The value of an address: the one of its longest network, or else the empty one. -/
inductive Answer (es : List (Text × Text)) (a : BitVec 32) (v : Text) : Prop
  | network (s : ℕ) (hs : s ≤ 32) (hv : valueOf es s a = some v)
      (hlonger : ∀ l, s < l → l ≤ 32 → valueOf es l a = none)
  | nothing (hv : v = []) (hnone : ∀ s ≤ 32, valueOf es s a = none)

/-- An entry that deletes a network. -/
def Deletes (e : Text × Text) : Prop := ∃ c, meaning e = some (c, none)

theorem valueOf_append {e : Text × Text} {c : Cidr} {w : Option Text} (h : meaning e = some (c, w))
    (es : List (Text × Text)) (s : ℕ) (a : BitVec 32) :
    valueOf (es ++ [e]) s a = if c.has s a then w else valueOf es s a := by
  have hlast : [e].filterMap meaning = [(c, w)] := by simp [h]
  rw [valueOf, List.filterMap_append, hlast, List.filter_append]
  by_cases hhas : c.has s a = true
  · simp [hhas]
  · simp [hhas, valueOf]

/-! ### The tree of a block -/

theorem toNat_maskBits : ∀ s < 33, (maskBits s).toNat = Radix.maskOf s := by
  decide

theorem Cidr.path_eq (c : Cidr) : c.path = (bits 32 c.addr.toNat).take c.shift := by
  rw [Cidr.path, Cidr.mask, toNat_maskBits _ (Nat.lt_succ_of_le c.shift_le), Radix.path_maskOf c.shift_le]

theorem Cidr.length_path_le (c : Cidr) : c.path.length ≤ 32 := Radix.length_path_le _ _

theorem Cidr.has_iff (c : Cidr) {s : ℕ} (hs : s ≤ 32) (a : BitVec 32) :
    c.has s a = true ↔ (bits 32 a.toNat).take s = c.path := by
  rw [c.path_eq, Radix.take_bits_eq_iff a.isLt c.addr.isLt hs c.shift_le, Cidr.has, decide_eq_true_iff]

/-- One entry of a tree is changed. -/
structure Updated (t : Radix Text) (p : List Bool) (w : Option Text) (t' : Radix Text) : Prop where
  get (q : List Bool) : Radix.get t' q = if q = p then w else Radix.get t q
  fits : Radix.Fits 32 t → Radix.Fits 32 t'
  branching : w ≠ none → Radix.Branching t → Radix.Branching t'

theorem updated_insert {t t' : Radix Text} {p : List Bool} {w : Option Text} (hp : p.length ≤ 32)
    (h : Radix.insert p w t = some t') : Updated t p w t' where
  get := (Radix.get_insert h).2
  fits hfits := Radix.fits_insert hp hfits h
  branching _ hbranch := Radix.branching_insert hbranch h

theorem updated_delete {t t' : Radix Text} {p : List Bool} (h : Radix.delete p t = .ok t') : Updated t p none t' where
  get := by
    have hleaves := Radix.leaves_delete p t
    rw [h] at hleaves
    exact hleaves
  fits hfits := Radix.fits_delete hfits h
  branching hne := absurd rfl hne

/-- A value that is replaced: a leaf goes with the nodes above it and comes back. -/
theorem updated_replace {t t₁ t₂ : Radix Text} {p : List Bool} {v : Text} (hp : p.length ≤ 32)
    (hdel : Radix.delete p t = .ok t₁) (hins : Radix.insert p (some v) t₁ = some t₂) : Updated t p (some v) t₂ where
  get q := by
    rw [(updated_insert hp hins).get, (updated_delete hdel).get]
    split <;> rfl
  fits hfits := (updated_insert hp hins).fits ((updated_delete hdel).fits hfits)
  branching hne hbranch := by
    rcases p with _ | ⟨b, p⟩
    · exact Radix.branching_insert (Radix.branching_delete_nil hbranch hdel) hins
    · exact Radix.branching_insert_cons hins

/-- **Adding a network sets its value.** The tree is never found invalid. -/
theorem cidrAdd_spec (g : Geo) (c : Cidr) (value net : Text) : match cidrAdd g c value net with
    | .ok g' => Updated g.tree c.path (some value) g'.tree
    | .failed _ => False
    | .crash => ¬ Radix.Branching g.tree := by
  rw [cidrAdd]
  rcases hins : Radix.insert c.path (some value) g.tree with _ | t
  · -- the network has a value
    have hvalue := Radix.get_of_insert_none hins
    have hleaves := Radix.leaves_delete c.path g.tree
    simp only [cidrReplace, Geo.say]
    rcases hdel : Radix.delete c.path g.tree with t₁ | _ | _
    · have hempty : Radix.get t₁ c.path = none := by
        rw [(updated_delete hdel).get, if_pos rfl]
      obtain ⟨t₂, ht₂⟩ := Radix.insert_isSome (v := some value) c.path t₁ hempty
      simp only [ht₂]
      exact updated_replace c.length_path_le hdel ht₂
    · rw [hdel] at hleaves
      exact hvalue hleaves
    · rw [hdel] at hleaves
      exact hleaves.2
  · exact updated_insert c.length_path_le hins

/-! ### The entries in turn -/

/-- A context in which some entries have been read. -/
structure Stands (es : List (Text × Text)) (g : Geo) : Prop where
  get {s : ℕ} (hs : s ≤ 32) (a : BitVec 32) : Radix.get g.tree ((bits 32 a.toNat).take s) = valueOf es s a
  fits : Radix.Fits 32 g.tree
  branching : (∀ e ∈ es, ¬ Deletes e) → Radix.Branching g.tree

theorem stands_start {n : ℕ} (hn : 0 < n) : Stands [] ⟨Radix.create Text n, []⟩ where
  get _ _ := (Radix.create_spec n).1.get _
  fits := (Radix.create_spec n).1.fits
  branching _ := (Radix.create_spec n).2 hn

theorem Stands.update {es : List (Text × Text)} {g g' : Geo} {e : Text × Text} {c : Cidr} {w : Option Text}
    (h : Stands es g) (he : meaning e = some (c, w)) (hup : Updated g.tree c.path w g'.tree) :
    Stands (es ++ [e]) g' where
  get {s} hs a := by
    rw [hup.get, valueOf_append he, h.get hs]
    by_cases hhas : c.has s a = true
    · rw [if_pos hhas, if_pos ((c.has_iff hs a).mp hhas)]
    · rw [if_neg hhas, if_neg (mt (c.has_iff hs a).mpr hhas)]
  fits := hup.fits h.fits
  branching hkept := by
    have hw : w ≠ none := by
      rintro rfl
      exact hkept e (by simp) ⟨c, he⟩
    apply hup.branching hw
    apply h.branching
    intro e' he'
    exact hkept e' (List.mem_append_left _ he')

/-- The log may grow. -/
theorem Stands.log {es : List (Text × Text)} {g g' : Geo} (h : Stands es g) (ht : g'.tree = g.tree) : Stands es g' where
  get hs a := by rw [ht, h.get hs]
  fits := ht ▸ h.fits
  branching hkept := ht ▸ h.branching hkept

theorem tree_read (g : Geo) (net : Text) (tidy : Bool) : (g.read net tidy).tree = g.tree := by
  cases tidy <;> rfl

/-- What an entry may do to a context. -/
def Follows (es : List (Text × Text)) (g : Geo) (e : Text × Text) : Loaded → Prop
  | .ok g' => meaning e ≠ none ∧ Stands (es ++ [e]) g'
  | .failed log => meaning e = none ∧ ∃ net, log = g.log ++ [.invalidNetwork net]
  | .crash => ∃ e' ∈ es ++ [e], Deletes e'

theorem follows_cidrAdd {es : List (Text × Text)} {g g₀ : Geo} {e : Text × Text} {c : Cidr} {value : Text} (net : Text)
    (h : Stands es g) (he : meaning e = some (c, some value)) : Follows es g₀ e (cidrAdd g c value net) := by
  have hspec := cidrAdd_spec g c value net
  rcases hadd : cidrAdd g c value net with g' | log | _
  · rw [hadd] at hspec
    refine ⟨?_, h.update he hspec⟩
    rw [he]
    simp
  · rw [hadd] at hspec
    exact absurd hspec id
  · rw [hadd] at hspec
    have hdel : ¬ ∀ e ∈ es, ¬ Deletes e := mt h.branching hspec
    simp only [not_forall, not_not] at hdel
    obtain ⟨e', hmem, he'⟩ := hdel
    exact ⟨e', List.mem_append_left _ hmem, he'⟩

theorem follows_cidrDelete {es : List (Text × Text)} {g g₀ : Geo} {e : Text × Text} {c : Cidr} (net : Text)
    (h : Stands es g) (he : meaning e = some (c, none)) : Follows es g₀ e (cidrDelete g c net) := by
  have hne : meaning e ≠ none := by
    rw [he]
    simp
  have hleaves := Radix.leaves_delete c.path g.tree
  rw [cidrDelete]
  rcases hdel : Radix.delete c.path g.tree with t | _ | _
  · exact ⟨hne, h.update he (updated_delete hdel)⟩
  · -- there was nothing to delete, so the tree is the one without the network
    rw [hdel] at hleaves
    refine ⟨hne, h.update he ⟨fun q => ?_, id, fun _ => id⟩⟩
    by_cases hq : q = c.path
    · rw [if_pos hq, hq]
      exact hleaves
    · rw [if_neg hq]
      rfl
  · exact ⟨e, by simp, c, he⟩

/-- What `ngx_http_geo_cidr` does with an entry: it cannot read the network, or it sets or deletes it. -/
theorem geoCidr_cases (g : Geo) (e : Text × Text) :
    (meaning e = none ∧ ∃ net, geoCidr g e = .failed (g.say (.invalidNetwork net)).log) ∨
      ∃ c net tidy, (meaning e = some (c, some e.2) ∧ geoCidr g e = cidrAdd (g.read net tidy) c e.2 e.1) ∨
        (meaning e = some (c, none) ∧ geoCidr g e = cidrDelete (g.read net tidy) c e.2) := by
  by_cases hdef : e.1 = "default".toList
  · rw [geoCidr, if_pos hdef, meaning, if_pos hdef]
    exact .inr ⟨everything, e.1, true, .inl ⟨rfl, rfl⟩⟩
  · by_cases hdel : e.1 = "delete".toList
    · rw [geoCidr, if_neg hdef, if_pos hdel, meaning, if_neg hdef, if_pos hdel]
      rcases cidrValue e.2 with _ | r
      · exact .inl ⟨rfl, e.2, rfl⟩
      · exact .inr ⟨r.1, e.2, r.2, .inr ⟨rfl, rfl⟩⟩
    · rw [geoCidr, if_neg hdef, if_neg hdel, meaning, if_neg hdef, if_neg hdel]
      rcases cidrValue e.1 with _ | r
      · exact .inl ⟨rfl, e.1, rfl⟩
      · exact .inr ⟨r.1, e.1, r.2, .inl ⟨rfl, rfl⟩⟩

/-- **One entry**: it is read and changes the value of its network, or the
network cannot be read. -/
theorem stands_geoCidr {es : List (Text × Text)} {g : Geo} (h : Stands es g) (e : Text × Text) :
    Follows es g e (geoCidr g e) := by
  rcases geoCidr_cases g e with ⟨hnone, net, heq⟩ | ⟨c, net, tidy, ⟨he, heq⟩ | ⟨he, heq⟩⟩
  · rw [heq]
    exact ⟨hnone, net, rfl⟩
  · rw [heq]
    exact follows_cidrAdd e.1 (h.log (tree_read g net tidy)) he
  · rw [heq]
    exact follows_cidrDelete e.2 (h.log (tree_read g net tidy)) he

/-- What a block may come to. -/
def Ends (es : List (Text × Text)) : Loaded → Prop
  | .ok g => (∀ e ∈ es, meaning e ≠ none) ∧ Stands es g
  | .failed log => (∃ e ∈ es, meaning e = none) ∧ ∃ net, log.getLast? = some (.invalidNetwork net)
  | .crash => ∃ e ∈ es, Deletes e

/-- **All entries**, from those that have been read. -/
theorem ends_load {es done : List (Text × Text)} {g : Geo} (hdone : ∀ e ∈ done, meaning e ≠ none) (h : Stands done g) :
    Ends (done ++ es) (load g es) := by
  induction es generalizing done g with
  | nil =>
    rw [List.append_nil]
    exact ⟨hdone, h⟩
  | cons e es ih =>
    have hstep := stands_geoCidr h e
    rw [load]
    rcases hgeo : geoCidr g e with g' | log | _
    · rw [hgeo] at hstep
      have hall : ∀ e' ∈ done ++ [e], meaning e' ≠ none := by
        intro e' he'
        rcases List.mem_append.mp he' with hmem | hmem
        · exact hdone e' hmem
        · rw [List.mem_singleton.mp hmem]
          exact hstep.1
      rw [List.append_cons]
      exact ih hall hstep.2
    · rw [hgeo] at hstep
      obtain ⟨hnone, net, rfl⟩ := hstep
      exact ⟨⟨e, by simp, hnone⟩, net, by simp⟩
    · rw [hgeo] at hstep
      obtain ⟨e', hmem, hdel⟩ := hstep
      refine ⟨e', ?_, hdel⟩
      rw [List.append_cons]
      exact List.mem_append_left _ hmem

theorem ends_start {n : ℕ} (hn : 0 < n) (es : List (Text × Text)) : Ends es (load ⟨Radix.create Text n, []⟩ es) := by
  have hload : Ends ([] ++ es) (load ⟨Radix.create Text n, []⟩ es) :=
    ends_load (fun e he => absurd he List.not_mem_nil) (stands_start hn)
  rwa [List.nil_append] at hload

/-! ### The variable -/

/-- A lookup gives the value of the longest network. -/
theorem Geo.find_eq {g : Geo} (h : Radix.Fits 32 g.tree) (a : BitVec 32) :
    g.find a = longest (Radix.get g.tree) (bits 32 a.toNat) := by
  rw [Geo.find, Radix.find_eq_longest none (by rwa [length_bits]), Option.or_none]

theorem prefix_eq_take {p : List Bool} {a : BitVec 32} (h : p <+: bits 32 a.toNat) :
    p.length ≤ 32 ∧ p = (bits 32 a.toNat).take p.length := by
  refine ⟨?_, List.prefix_iff_eq_take.mp h⟩
  calc p.length ≤ (bits 32 a.toNat).length := h.length_le
    _ = 32 := length_bits 32 _

theorem take_prefix_bits {l : ℕ} (hl : l ≤ 32) (a : BitVec 32) :
    (bits 32 a.toNat).take l <+: bits 32 a.toNat ∧ ((bits 32 a.toNat).take l).length = l := by
  refine ⟨List.take_prefix _ _, ?_⟩
  rw [List.length_take, length_bits, min_eq_left hl]

theorem get_close {es : List (Text × Text)} {g : Geo} (h : Stands es g) :
    Radix.Fits 32 g.close.tree ∧
      ∀ q, Radix.get g.close.tree q = if q = [] then (Radix.get g.tree []).or (some []) else Radix.get g.tree q := by
  rcases hins : Radix.insert [] (some []) g.tree with _ | t
  · obtain ⟨v, hv⟩ := Option.ne_none_iff_exists'.mp (Radix.get_of_insert_none hins)
    simp only [Geo.close, hins, Option.getD_none]
    refine ⟨h.fits, fun q => ?_⟩
    by_cases hq : q = []
    · rw [if_pos hq, hq, hv, Option.some_or]
    · rw [if_neg hq]
  · simp only [Geo.close, hins, Option.getD_some]
    obtain ⟨hnone, hget⟩ := Radix.get_insert hins
    refine ⟨Radix.fits_insert (Nat.zero_le _) h.fits hins, fun q => ?_⟩
    rw [hget, hnone, Option.none_or]

/-- **Every address has a value**, and it is the one that the entries say. -/
theorem answer_close {es : List (Text × Text)} {g : Geo} (h : Stands es g) (a : BitVec 32) :
    ∃ v, g.close.find a = some v ∧ Answer es a v := by
  obtain ⟨hfits, hget⟩ := get_close h
  have hroot : Radix.get g.tree [] = valueOf es 0 a := h.get (Nat.zero_le _) a
  rw [Geo.find_eq hfits]
  rcases hlongest : longest (Radix.get g.close.tree) (bits 32 a.toNat) with _ | v
  · -- the root has a value
    have hnone := longest_eq_none_iff.mp hlongest [] List.nil_prefix
    rw [hget, if_pos rfl, Option.or_eq_none_iff] at hnone
    cases hnone.2
  · refine ⟨v, rfl, ?_⟩
    obtain ⟨p, hp, hv, hlonger⟩ := longest_eq_some_iff.mp hlongest
    obtain ⟨hlen, htake⟩ := prefix_eq_take hp
    have hnone : ∀ l, p.length < l → l ≤ 32 → valueOf es l a = none := by
      intro l hlt hl
      obtain ⟨hpre, hlength⟩ := take_prefix_bits hl a
      have hempty := hlonger _ hpre (by rwa [hlength])
      have hne : (bits 32 a.toNat).take l ≠ [] := by
        rw [← List.length_pos_iff, hlength]
        omega
      rwa [hget, if_neg hne, h.get hl] at hempty
    by_cases hnil : p = []
    · subst hnil
      rw [hget, if_pos rfl, hroot] at hv
      rcases hzero : valueOf es 0 a with _ | w
      · rw [hzero, Option.none_or] at hv
        refine .nothing (Option.some.inj hv).symm fun s hs => ?_
        rcases Nat.eq_zero_or_pos s with rfl | hpos
        · exact hzero
        · exact hnone s hpos hs
      · rw [hzero, Option.some_or] at hv
        exact .network 0 (Nat.zero_le _) (hzero.trans hv) hnone
    · rw [hget, if_neg hnil, htake, h.get hlen] at hv
      exact .network p.length hlen hv hnone

/-- What a block may come to, in terms of the variable. -/
inductive Served (es : List (Text × Text)) : Loaded → Prop
  | ok {g : Geo} (hread : ∀ e ∈ es, meaning e ≠ none) (hvalue : ∀ a, ∃ v, g.find a = some v ∧ Answer es a v) :
      Served es (.ok g)
  | failed {log : List Message} (hbad : ∃ e ∈ es, meaning e = none)
      (hlog : ∃ net, log.getLast? = some (.invalidNetwork net)) : Served es (.failed log)
  | crash (hdel : ∃ e ∈ es, Deletes e) : Served es .crash

/-- A block with a network inside another one, and a value that is replaced. -/
def offices : List (Text × Text) :=
  [("default".toList, "out".toList), ("10.0.0.0/8".toList, "net".toList), ("10.1.0.0/16".toList, "lab".toList),
    ("10.0.0.0/8".toList, "office".toList)]

/-- The value of an address after a block that is read. -/
def Loaded.find (a : BitVec 32) : Loaded → Option Text
  | .ok g => g.find a
  | _ => none

/-- All networks of six bits are deleted, and the default is given twice. -/
def emptied : List (Text × Text) :=
  (List.range 64).map (fun i => ("delete".toList, dotted (4 * i) 0 0 0 ++ "/6".toList)) ++
    [("default".toList, "a".toList), ("default".toList, "b".toList)]

def Loaded.isCrash : Loaded → Bool
  | .crash => true
  | _ => false

-- the second default is deleted from a root without children
example : (geoBlock 6 emptied).isCrash = true := by decide +kernel

/-! ### Networks that are given twice -/

def Message.isDuplicate : Message → Bool
  | .duplicate .. => true
  | _ => false

/-- The value of the longest network with an address, of those that have one. -/
def valueAt (es : List (Text × Text)) (a : BitVec 32) : Option Text :=
  longest (fun p => valueOf es p.length a) (bits 32 a.toNat)

/-- The message about an entry whose network has a value. The old value in it
is looked up by the first address of the network. -/
def duplicateOf (es : List (Text × Text)) (e : Text × Text) : Option Message :=
  match meaning e with
  | some (c, some value) =>
    if (valueOf es c.shift c.addr).isSome then some (.duplicate e.1 value (valueAt es c.addr)) else none
  | _ => none

/-- The messages about the entries after some others. -/
def duplicates (done : List (Text × Text)) : List (Text × Text) → List Message
  | [] => []
  | e :: es => (duplicateOf done e).toList ++ duplicates (done ++ [e]) es

theorem Stands.find {es : List (Text × Text)} {g : Geo} (h : Stands es g) (a : BitVec 32) :
    g.find a = valueAt es a := by
  rw [Geo.find_eq h.fits]
  apply longest_congr
  intro p hp
  obtain ⟨hlen, htake⟩ := prefix_eq_take hp
  calc Radix.get g.tree p = Radix.get g.tree ((bits 32 a.toNat).take p.length) := by rw [← htake]
    _ = valueOf es p.length a := h.get hlen a

/-- What is new in the log, as far as it is about networks given twice. -/
def Noted (g : Geo) (ms : List Message) : Loaded → Prop
  | .ok g' => g'.log.filter Message.isDuplicate = g.log.filter Message.isDuplicate ++ ms
  | _ => True

theorem noted_read {g : Geo} {net : Text} {tidy : Bool} {ms : List Message} {r : Loaded}
    (h : Noted (g.read net tidy) ms r) : Noted g ms r := by
  rcases r with g' | _ | _
  · have hsame : (g.read net tidy).log.filter Message.isDuplicate = g.log.filter Message.isDuplicate := by
      cases tidy
      · simp [Geo.read, Geo.say, Message.isDuplicate]
      · rfl
    rw [Noted, hsame] at h
    exact h
  · trivial
  · trivial

theorem noted_cidrReplace (g : Geo) (c : Cidr) (value : Text) : Noted g [] (cidrReplace g c value) := by
  rw [cidrReplace]
  rcases Radix.delete c.path g.tree with t | _ | _
  · rcases hins : Radix.insert c.path (some value) t with _ | t'
    · simp only [hins]
      trivial
    · simp only [hins, Noted, List.append_nil]
  · trivial
  · trivial

theorem noted_cidrAdd {es : List (Text × Text)} {g : Geo} (h : Stands es g) (c : Cidr) (value net : Text) :
    Noted g (if (valueOf es c.shift c.addr).isSome then [.duplicate net value (valueAt es c.addr)] else [])
      (cidrAdd g c value net) := by
  have hown : Radix.get g.tree c.path = valueOf es c.shift c.addr := by
    rw [c.path_eq]
    exact h.get c.shift_le c.addr
  rw [cidrAdd, h.find]
  rcases hins : Radix.insert c.path (some value) g.tree with _ | t
  · have hsome : (valueOf es c.shift c.addr).isSome = true := by
      rw [← hown, Option.isSome_iff_ne_none]
      exact Radix.get_of_insert_none hins
    rw [if_pos hsome]
    have hreplace := noted_cidrReplace (g.say (.duplicate net value (valueAt es c.addr))) c value
    simp only
    rcases hcase : cidrReplace (g.say (.duplicate net value (valueAt es c.addr))) c value with g' | _ | _
    · rw [hcase, Noted, List.append_nil] at hreplace
      rw [Noted, hreplace]
      simp [Geo.say, Message.isDuplicate]
    · trivial
    · trivial
  · rw [← hown, (Radix.get_insert hins).1]
    simp [Noted]

theorem noted_cidrDelete (g : Geo) (c : Cidr) (net : Text) : Noted g [] (cidrDelete g c net) := by
  rw [cidrDelete]
  rcases Radix.delete c.path g.tree with t | _ | _
  · simp only [Noted, List.append_nil]
  · simp [Noted, Geo.say, Message.isDuplicate]
  · trivial

theorem noted_geoCidr {es : List (Text × Text)} {g : Geo} (h : Stands es g) (e : Text × Text) :
    Noted g (duplicateOf es e).toList (geoCidr g e) := by
  rcases geoCidr_cases g e with ⟨-, net, heq⟩ | ⟨c, net, tidy, ⟨he, heq⟩ | ⟨he, heq⟩⟩
  · rw [heq]
    trivial
  · rw [heq]
    apply noted_read
    have hadd := noted_cidrAdd (h.log (tree_read g net tidy)) c e.2 e.1
    rw [duplicateOf, he]
    by_cases hsome : (valueOf es c.shift c.addr).isSome = true
    · rw [if_pos hsome] at hadd
      simpa only [if_pos hsome, Option.toList_some] using hadd
    · rw [if_neg hsome] at hadd
      simpa only [if_neg hsome, Option.toList_none] using hadd
  · rw [heq]
    apply noted_read
    have hnone : duplicateOf es e = none := by rw [duplicateOf, he]
    rw [hnone]
    exact noted_cidrDelete _ c e.2

theorem noted_load {es done : List (Text × Text)} {g : Geo} (h : Stands done g) :
    Noted g (duplicates done es) (load g es) := by
  induction es generalizing done g with
  | nil => simp [load, duplicates, Noted]
  | cons e es ih =>
    have hstep := stands_geoCidr h e
    have hnoted := noted_geoCidr h e
    rw [load, duplicates]
    rcases hgeo : geoCidr g e with g' | log | _
    · rw [hgeo] at hstep hnoted
      have hrest := ih hstep.2
      simp only
      rcases hload : load g' es with g'' | _ | _
      · rw [hload] at hrest
        calc g''.log.filter Message.isDuplicate
            = g'.log.filter Message.isDuplicate ++ duplicates (done ++ [e]) es := hrest
          _ = g.log.filter Message.isDuplicate ++ (duplicateOf done e).toList ++ duplicates (done ++ [e]) es := by
            rw [show g'.log.filter Message.isDuplicate = _ from hnoted]
          _ = _ := List.append_assoc _ _ _
      · trivial
      · trivial
    · trivial
    · trivial

/-- The log of a block that is read. -/
def Loaded.log? : Loaded → Option (List Message)
  | .ok g => some g.log
  | _ => none

/-- A network that is given twice, with a longer one at its first address. -/
def twice : List (Text × Text) :=
  [("10.0.0.0/8".toList, "a".toList), ("10.0.0.0/24".toList, "b".toList), ("10.0.0.0/8".toList, "c".toList)]

/-- The number of an address. -/
def inaddr (x : IPv4) : ℕ := ((x.a * 256 + x.b) * 256 + x.c) * 256 + x.d

/-- A network in the usual form. -/
def networkText (x : IPv4) (s : ℕ) : Text := x.text ++ '/' :: decimal s

theorem shift_add (m o : ℕ) : BitVec.ofNat 32 m <<< 8 + BitVec.ofNat 32 o = BitVec.ofNat 32 (m * 256 + o) := by
  apply BitVec.eq_of_toNat_eq
  simp [BitVec.toNat_shiftLeft, Nat.shiftLeft_eq]

theorem digit_value : ∀ d < 10, d.digitChar.isDigit = true ∧ d.digitChar.toNat - 48 = d := by
  decide

theorem inetAddr_digit (addr : BitVec 32) {octet d : ℕ} (n : ℕ) (t : Text) (hd : d < 10) (h : octet * 10 + d ≤ 255) :
    inetAddr addr octet n (d.digitChar :: t) = inetAddr addr (octet * 10 + d) n t := by
  obtain ⟨hdigit, hvalue⟩ := digit_value d hd
  rw [inetAddr, if_pos hdigit, hvalue, if_neg (by omega)]

/-- The digits of an octet are read as the octet. -/
theorem inetAddr_decimal (addr : BitVec 32) (n : ℕ) (k : ℕ) (hk : k ≤ 255) (t : Text) :
    inetAddr addr 0 n (decimal k ++ t) = inetAddr addr k n t := by
  induction k using Nat.strongRecOn generalizing t with
  | ind k ih =>
    rcases Nat.lt_or_ge k 10 with hlt | hge
    · rw [decimal, Nat.toDigits_of_lt_base hlt, List.singleton_append, inetAddr_digit addr n t hlt (by omega)]
      simp
    · rw [decimal, Nat.toDigits_of_base_le (by norm_num) hge, List.append_assoc, ih (k / 10) (by omega) (by omega),
        List.singleton_append, inetAddr_digit addr n t (Nat.mod_lt _ (by norm_num)) (by omega), Nat.mul_comm,
        Nat.div_add_mod]

theorem inetAddr_dot (addr : BitVec 32) (octet n : ℕ) (t : Text) :
    inetAddr addr octet n ('.' :: t) = inetAddr (addr <<< 8 + BitVec.ofNat 32 octet) 0 (n + 1) t := by
  rw [inetAddr, if_neg (by decide), if_pos rfl]

theorem inetAddr_text (x : IPv4) : inetAddr 0 0 0 x.text = BitVec.ofNat 32 (inaddr x) := by
  have ha := Nat.le_of_lt_succ x.a.isLt
  have hb := Nat.le_of_lt_succ x.b.isLt
  have hc := Nat.le_of_lt_succ x.c.isLt
  have hd := Nat.le_of_lt_succ x.d.isLt
  have hlast : decimal x.d = decimal x.d ++ [] := (List.append_nil _).symm
  rw [IPv4.text, dotted, inetAddr_decimal _ _ _ ha, inetAddr_dot, inetAddr_decimal _ _ _ hb, inetAddr_dot,
    inetAddr_decimal _ _ _ hc, inetAddr_dot, hlast, inetAddr_decimal _ _ _ hd, inetAddr, if_pos rfl,
    show (0 : BitVec 32) = BitVec.ofNat 32 0 from rfl, shift_add, shift_add, shift_add, shift_add, inaddr]
  simp

theorem inaddr_lt (x : IPv4) : inaddr x < 2 ^ 32 := by
  rw [inaddr]
  omega

theorem atoi_decimal : ∀ s < 33, atoi (decimal s) = some s := by
  decide +kernel

theorem slash_notMem_text (x : IPv4) : '/' ∉ x.text := by
  have hdec := notMem_decimal (c := '/') rfl
  simp [IPv4.text, dotted, hdec]

theorem takeWhile_slash {t u : Text} (h : '/' ∉ t) :
    (t ++ '/' :: u).takeWhile (· ≠ '/') = t ∧ (t ++ '/' :: u).dropWhile (· ≠ '/') = '/' :: u := by
  have hall : ∀ c ∈ t, (decide (c ≠ '/')) = true := by
    intro c hc
    apply decide_eq_true
    rintro rfl
    exact h hc
  constructor
  · rw [List.takeWhile_append_of_pos hall]
    simp
  · rw [List.dropWhile_append_of_pos hall]
    simp

theorem testBit_maskBits : ∀ s < 33, ∀ i < 32, (maskBits s).toNat.testBit i = decide (32 - s ≤ i) := by
  decide +kernel

/-- A mask clears the low bits. -/
theorem toNat_and_maskBits {s : ℕ} (hs : s ≤ 32) (a : BitVec 32) :
    (a &&& maskBits s).toNat = a.toNat / 2 ^ (32 - s) * 2 ^ (32 - s) := by
  apply Nat.eq_of_testBit_eq
  intro i
  rw [BitVec.toNat_and, Nat.testBit_and, Nat.testBit_mul_two_pow, Nat.testBit_div_two_pow]
  rcases Nat.lt_or_ge i 32 with hi | hi
  · rw [testBit_maskBits s (by omega) i hi]
    by_cases hle : 32 - s ≤ i
    · rw [Nat.sub_add_cancel hle, Bool.and_comm]
    · simp [hle]
  · have hzero : a.toNat.testBit i = false :=
      Nat.testBit_lt_two_pow (a.isLt.trans_le (Nat.pow_le_pow_right Nat.two_pos hi))
    have hle : 32 - s ≤ i := by omega
    rw [Nat.sub_add_cancel hle, hzero, Bool.false_and, Bool.and_false]

theorem inaddr_eq_none_iff (x : IPv4) : BitVec.ofNat 32 (inaddr x) = inaddrNone ↔ x = .of 255 255 255 255 := by
  constructor
  · intro h
    have hnat := congrArg BitVec.toNat h
    rw [BitVec.toNat_ofNat, Nat.mod_eq_of_lt (inaddr_lt x), inaddr] at hnat
    have hmax : inaddrNone.toNat = 4294967295 := rfl
    obtain ⟨⟨a, _⟩, ⟨b, _⟩, ⟨c, _⟩, ⟨d, _⟩⟩ := x
    simp only [hmax] at hnat
    obtain ⟨rfl, rfl, rfl, rfl⟩ : a = 255 ∧ b = 255 ∧ c = 255 ∧ d = 255 := by omega
    rfl
  · rintro rfl
    rfl

theorem networkText_ne {t : Text} (h : '/' ∉ t) (x : IPv4) (s : ℕ) : networkText x s ≠ t := by
  rintro rfl
  apply h
  simp [networkText]

/-- The text of a network is neither of the two words that mean something else. -/
theorem meaning_networkText (x : IPv4) (s : ℕ) (v : Text) :
    meaning (networkText x s, v) = (cidrValue (networkText x s)).map fun r => (r.1, some v) := by
  rw [meaning, if_neg (networkText_ne (by decide) _ _), if_neg (networkText_ne (by decide) _ _)]

theorem ptocidr_networkText (x : IPv4) {s : ℕ} (hs : s ≤ 32) :
    ptocidr (networkText x s) = if x = .of 255 255 255 255 then none else
      some (⟨BitVec.ofNat 32 (inaddr x) &&& maskBits s, s, hs⟩,
        decide (BitVec.ofNat 32 (inaddr x) = BitVec.ofNat 32 (inaddr x) &&& maskBits s)) := by
  obtain ⟨htake, hdrop⟩ := takeWhile_slash (u := decimal s) (slash_notMem_text x)
  have hread : inetAddr 0 0 0 ((networkText x s).takeWhile (· ≠ '/')) = BitVec.ofNat 32 (inaddr x) := by
    rw [networkText, htake, inetAddr_text]
  rw [ptocidr]
  simp only [hread]
  by_cases hx : x = .of 255 255 255 255
  · rw [if_pos ((inaddr_eq_none_iff x).mpr hx), if_pos hx]
  · rw [if_neg (mt (inaddr_eq_none_iff x).mp hx), if_neg hx, networkText, hdrop]
    simp only [atoi_decimal s (by omega), Option.bind_some, dif_pos hs]

theorem cidrValue_broadcast {s : ℕ} (hs : s ≤ 32) : cidrValue (networkText (.of 255 255 255 255) s) = none := by
  rw [cidrValue, if_neg (networkText_ne (by decide) _ _), ptocidr_networkText _ hs, if_pos rfl]

theorem cidrValue_networkText {x : IPv4} {s : ℕ} (hs : s ≤ 32) (hx : x ≠ .of 255 255 255 255) :
    ∃ c tidy, cidrValue (networkText x s) = some (c, tidy) ∧ c.shift = s ∧
      c.addr.toNat = inaddr x / 2 ^ (32 - s) * 2 ^ (32 - s) ∧ (tidy = true ↔ 2 ^ (32 - s) ∣ inaddr x) := by
  have hnat : (BitVec.ofNat 32 (inaddr x)).toNat = inaddr x := by
    rw [BitVec.toNat_ofNat, Nat.mod_eq_of_lt (inaddr_lt x)]
  rw [cidrValue, if_neg (networkText_ne (by decide) _ _), ptocidr_networkText _ hs, if_neg hx]
  refine ⟨_, _, rfl, rfl, ?_, ?_⟩
  · rw [toNat_and_maskBits hs, hnat]
  · rw [decide_eq_true_iff, ← BitVec.toNat_inj, toNat_and_maskBits hs, hnat]
    constructor
    · intro h
      exact ⟨_, h.trans (Nat.mul_comm _ _)⟩
    · intro h
      exact (Nat.div_mul_cancel h).symm

/-- **A network in the usual form is read as such**: its length, its address
without the low bits, and whether it had any. The only ones that are refused
are those that are written with 255.255.255.255. -/
theorem network_read (x : IPv4) {s : ℕ} (hs : s ≤ 32) :
    (x = .of 255 255 255 255 → cidrValue (networkText x s) = none) ∧
      (x ≠ .of 255 255 255 255 → ∃ c tidy, cidrValue (networkText x s) = some (c, tidy) ∧ c.shift = s ∧
        c.addr.toNat = inaddr x / 2 ^ (32 - s) * 2 ^ (32 - s) ∧ (tidy = true ↔ 2 ^ (32 - s) ∣ inaddr x)) := by
  constructor
  · rintro rfl
    exact cidrValue_broadcast hs
  · exact cidrValue_networkText hs

theorem network_read_broadcast : (32 ≤ 32) ∧ cidrValue (networkText (.of 255 255 255 255) 32) = none :=
  ⟨le_rfl, (network_read (.of 255 255 255 255) le_rfl).1 rfl⟩

end Nginx
end OpsScripts
