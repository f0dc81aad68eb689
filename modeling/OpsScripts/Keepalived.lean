/-
# The keepalived configuration that `start.sh` writes

`start.sh` copies the template of the node's role over `keepalived.conf` and
rewrites it with up to three `sed -i s/.../.../g`, each of which sees what the
ones before it wrote. What is wanted is the template with the interface of
both instances and the address of each replaced at once (`configured`).

The two agree exactly when the later rewritings leave alone what the earlier
ones wrote (`Env.Apart`): the interface is not changed by the rewriting of the
addresses, and `VIRTUAL_IP1` is not the second default address, unless
`VIRTUAL_IP2` is the same or empty.

Key definitions: `masterConf`, `backupConf`, `start`, `configured`,
`routerAddress`, `Env.Apart`.
Key theorems: `occurs_vip2`, `start_exact`.
-/
import OpsScripts.Inet
import OpsScripts.Pattern

namespace OpsScripts
namespace Keepalived

/-! ### The templates -/

/-- A `vrrp_instance` block. -/
def instanceLines (name state interface id priority pass address : Text) : List Text :=
  ["vrrp_instance ".toList ++ name ++ " \x7b".toList,
    "   state ".toList ++ state,
    "   interface ".toList ++ interface,
    "   virtual_router_id ".toList ++ id,
    "   priority ".toList ++ priority,
    "   advert_int 1".toList,
    "   authentication \x7b".toList,
    "      auth_type PASS".toList,
    "      auth_pass ".toList ++ pass,
    "   \x7d".toList,
    "   virtual_ipaddress \x7b".toList,
    "      ".toList ++ (address ++ "/24".toList),
    "   \x7d".toList,
    "   track_script \x7b".toList,
    "      check_nginx".toList,
    "   \x7d".toList,
    "\x7d".toList]

/-- The blocks in front of the instances. -/
def globalLines (routerId : Text) : List Text :=
  ["global_defs \x7b".toList,
    "   router_id ".toList ++ routerId,
    "   script_user root".toList,
    "   enable_script_security".toList,
    "\x7d".toList,
    [],
    "vrrp_script check_nginx \x7b".toList,
    "   script \"/usr/bin/check_nginx.sh\"".toList,
    "   interval 2".toList,
    "   weight -20".toList,
    "   fall 3".toList,
    "   rise 2".toList,
    "\x7d".toList,
    []]

/-- The lines of a configuration of either role, with the interface and the
addresses of VI_1 and VI_2 left open. -/
def confLines (master : Bool) (interface address1 address2 : Text) : List Text :=
  if master then
    globalLines "NGINX_MASTER".toList ++
      (instanceLines "VI_1".toList "MASTER".toList interface "51".toList "100".toList "1111".toList address1 ++
        [] :: instanceLines "VI_2".toList "BACKUP".toList interface "52".toList "90".toList "2222".toList address2)
  else
    globalLines "NGINX_BACKUP".toList ++
      (instanceLines "VI_1".toList "BACKUP".toList interface "51".toList "90".toList "1111".toList address1 ++
        [] :: instanceLines "VI_2".toList "MASTER".toList interface "52".toList "100".toList "2222".toList address2)

/-- A configuration as the text of a file; the last line has no newline. -/
def confText (master : Bool) (interface address1 address2 : Text) : Text :=
  ['\n'].intercalate (confLines master interface address1 address2)

def defaultInterface : Text := "eth0".toList

def defaultAddress1 : Text := "192.168.1.200".toList

def defaultAddress2 : Text := "192.168.1.201".toList

/-- `keepalived-master.conf`. -/
def masterConf : Text := confText true defaultInterface defaultAddress1 defaultAddress2

/-- `keepalived-backup.conf`. -/
def backupConf : Text := confText false defaultInterface defaultAddress1 defaultAddress2

/-! ### `start.sh` -/

/-- The environment: an interface without characters that are special to
`sed`, and addresses; what is empty is not set. -/
structure Env where
  interface : Text
  virtualIp1 : Option IPv4
  virtualIp2 : Option IPv4
  slash : '/' ∉ interface
  ampersand : '&' ∉ interface
  backslash : '\\' ∉ interface
  newline : '\n' ∉ interface

/-- `sed -i "s/interface eth0/interface $INTERFACE/g"`, if it is not empty. -/
def sedInterface (interface conf : Text) : Text :=
  if interface ≠ [] then
    (Pattern.regex "interface eth0".toList).subst ("interface ".toList ++ interface) conf
  else conf

/-- `sed -i "s/<address>/$VIRTUAL_IP/g"`, if it is not empty. -/
def sedAddress (address : Text) (ip : Option IPv4) (conf : Text) : Text :=
  match ip with
  | some x => (Pattern.regex address).subst x.text conf
  | none => conf

/-- The two rewritings of the addresses. -/
def sedAddresses (env : Env) (conf : Text) : Text :=
  sedAddress "192.168.1.201".toList env.virtualIp2 (sedAddress "192.168.1.200".toList env.virtualIp1 conf)

/-- The contents of `keepalived.conf` after `start.sh`; `prev` is what was in
it before, and `role` is `KEEPALIVED_ROLE`. -/
def start (role : Text) (env : Env) (_prev : Text) : Text :=
  let conf := if role = "master".toList then masterConf else backupConf
  sedAddresses env (sedInterface env.interface conf)

/-! ### What is wanted -/

namespace Env

/-- The interface of both instances. -/
def wantedInterface (env : Env) : Text := if env.interface = [] then defaultInterface else env.interface

/-- The address of VI_1. -/
def wantedAddress1 (env : Env) : Text := (env.virtualIp1.map IPv4.text).getD defaultAddress1

/-- The address of VI_2. -/
def wantedAddress2 (env : Env) : Text := (env.virtualIp2.map IPv4.text).getD defaultAddress2

end Env

/-- The role's template with everything replaced at once. -/
def configured (role : Text) (env : Env) : Text :=
  confText (role = "master".toList) env.wantedInterface env.wantedAddress1 env.wantedAddress2

/-- The address of the virtual router `id` in a configuration: the line after
`virtual_ipaddress` that follows its `virtual_router_id`. -/
def routerAddress (id conf : Text) : Option Text :=
  let ls := (conf.splitOn '\n').dropWhile (· ≠ "   virtual_router_id ".toList ++ id)
  (ls.dropWhile (· ≠ "   virtual_ipaddress \x7b".toList))[1]?

/-- The second default address. -/
def vip2 : IPv4 := .of 192 168 1 201

/-- What one rewriting writes the next ones leave alone. -/
def Env.Apart (env : Env) : Prop :=
  sedAddresses env env.interface = env.interface ∧
    ∀ b, env.virtualIp1 = some vip2 → env.virtualIp2 = some b → b = vip2

/-! ### Addresses in addresses

The expression `192.168.1.201` matches other texts than this address, and in
front of `/24` it could reach behind the address it starts in. Octet by octet:
after `192.` it needs `168.`, after that `1.`, and after that `201`. -/

/-- The expression of the third rewriting. -/
def pattern2 : Pattern := .regex "192.168.1.201".toList

/-- What is left of it after `k` characters. -/
def rest2 (k : ℕ) : Pattern := pattern2.drop k

/-- Every octet, in each of the four places. -/
theorem octet_cases : ∀ x : Fin 256,
    pattern2.residuals (decimal x ++ ['.']) = (if x = 192 then [rest2 4] else []) ∧
    (rest2 4).after (decimal x ++ ['.']) = (if x = 168 then some (rest2 8) else none) ∧
    (rest2 8).after (decimal x ++ ['.']) = (if x = 1 then some (rest2 10) else none) ∧
    (rest2 10).here (decimal x ++ "/24".toList) = decide (x = 201) ∧
    pattern2.occurs (decimal x ++ "/24".toList) = false ∧
    (rest2 4).here (decimal x ++ "/24".toList) = false ∧
    (rest2 8).here (decimal x ++ "/24".toList) = false := by
  decide +kernel

/-- An octet and its dot, in front of a text. -/
theorem here_octet {p : Pattern} {x : Fin 256} {q : Option Pattern} (h : p.after (decimal x ++ ['.']) = q)
    (t : Text) : p.here (decimal x ++ '.' :: t) = q.any (·.here t) := by
  rw [← h, ← Pattern.here_append, List.append_assoc]
  rfl

theorem occurs_octet (x : Fin 256) (t : Text) :
    pattern2.occurs (decimal x ++ '.' :: t) =
      ((decide (x = 192) && (rest2 4).here t) || pattern2.occurs t) := by
  have := pattern2.occurs_append (decimal x ++ ['.']) t
  rw [List.append_assoc, List.singleton_append, (octet_cases x).1] at this
  rw [this]
  split <;> simp_all

theorem here_octet2 (x : Fin 256) (t : Text) :
    (rest2 4).here (decimal x ++ '.' :: t) = (decide (x = 168) && (rest2 8).here t) := by
  rw [here_octet (octet_cases x).2.1]
  split <;> simp_all

theorem here_octet3 (x : Fin 256) (t : Text) :
    (rest2 8).here (decimal x ++ '.' :: t) = (decide (x = 1) && (rest2 10).here t) := by
  rw [here_octet (octet_cases x).2.2.1]
  split <;> simp_all

/-- **Among the addresses the expression matches its own only.** -/
theorem occurs_vip2 (x : IPv4) : pattern2.occurs (x.text ++ "/24".toList) = decide (x = vip2) := by
  have htext : x.text ++ "/24".toList = decimal x.a ++ '.' :: (decimal x.b ++ '.' :: (decimal x.c ++ '.' ::
      (decimal x.d ++ "/24".toList))) := by
    simp [IPv4.text, dotted]
  obtain ⟨-, -, -, h4, h1, h2, h3⟩ := octet_cases x.d
  rw [htext, occurs_octet, occurs_octet, occurs_octet, here_octet2, here_octet2, here_octet3,
    h4, h1, h2, h3]
  have hvip : vip2 = ⟨192, 168, 1, 201⟩ := rfl
  obtain ⟨a, b, c, d⟩ := x
  simp [hvip]

theorem text_inj {x y : IPv4} (h : x.text = y.text) : x = y := by
  have hsplit : ∀ z : IPv4, z.text.splitOn '.' = [decimal z.a, decimal z.b, decimal z.c, decimal z.d] := by
    intro z
    have htext : z.text = ['.'].intercalate [decimal z.a, decimal z.b, decimal z.c, decimal z.d] := by
      simp [IPv4.text, dotted, List.intercalate_cons_cons]
    rw [htext]
    refine List.splitOn_intercalate '.' (fun l hl => ?_) (by simp)
    simp only [List.mem_cons, List.not_mem_nil, or_false] at hl
    rcases hl with rfl | rfl | rfl | rfl <;> exact notMem_decimal (by decide) _
  have hs := (hsplit x).symm.trans ((congrArg (·.splitOn '.') h).trans (hsplit y))
  simp only [List.cons.injEq, and_true] at hs
  obtain ⟨ha, hb, hc, hd⟩ := hs
  obtain ⟨a, b, c, d⟩ := x
  obtain ⟨a', b', c', d'⟩ := y
  simp only [IPv4.mk.injEq]
  exact ⟨Fin.ext (decimal_inj ha), Fin.ext (decimal_inj hb), Fin.ext (decimal_inj hc), Fin.ext (decimal_inj hd)⟩

/-! ### The rewritings, line by line -/

/-- All that happens to a line. -/
def rewriteLine (env : Env) (l : Text) : Text := sedAddresses env (sedInterface env.interface l)

/-- A line in which none of the three expressions occurs. -/
def untouched (l : Text) : Bool :=
  !(Pattern.regex "interface eth0".toList).occurs l && !(Pattern.regex "192.168.1.200".toList).occurs l &&
    !(Pattern.regex "192.168.1.201".toList).occurs l

theorem sedInterface_of_not_occurs {l : Text} (h : (Pattern.regex "interface eth0".toList).occurs l = false)
    (interface : Text) : sedInterface interface l = l := by
  unfold sedInterface
  split
  · exact Pattern.subst_of_not_occurs _ h
  · rfl

theorem sedAddress_of_not_occurs {address l : Text} (h : (Pattern.regex address).occurs l = false)
    (ip : Option IPv4) : sedAddress address ip l = l := by
  unfold sedAddress
  split
  · exact Pattern.subst_of_not_occurs _ h
  · rfl

theorem rewriteLine_of_untouched {l : Text} (h : untouched l = true) (env : Env) : rewriteLine env l = l := by
  simp only [untouched, Bool.and_eq_true, Bool.not_eq_true'] at h
  rw [rewriteLine, sedAddresses, sedInterface_of_not_occurs h.1.1, sedAddress_of_not_occurs h.1.2,
    sedAddress_of_not_occurs h.2]

theorem map_rewriteLine {ls : List Text} (h : ls.all untouched = true) (env : Env) :
    ls.map (rewriteLine env) = ls := by
  refine (List.map_congr_left fun l hl => ?_).trans (List.map_id ls)
  exact rewriteLine_of_untouched (List.all_eq_true.mp h l hl) env

/-- `sed` rewrites a file line by line. -/
theorem rewrite_intercalate (env : Env) (ls : List Text) :
    sedAddresses env (sedInterface env.interface (['\n'].intercalate ls)) =
      ['\n'].intercalate (ls.map (rewriteLine env)) := by
  have hi : ∀ (interface : Text) (ls : List Text), sedInterface interface (['\n'].intercalate ls) =
      ['\n'].intercalate (ls.map (sedInterface interface)) := by
    intro interface ls
    by_cases h : interface ≠ []
    · have hsed : sedInterface interface = (Pattern.regex "interface eth0".toList).subst
          ("interface ".toList ++ interface) := funext fun l => if_pos h
      rw [hsed, Pattern.subst_intercalate (by decide) (by decide)]
    · have hsed : sedInterface interface = id := funext fun l => if_neg h
      rw [hsed, List.map_id]
      rfl
  have ha : ∀ (address : Text) (ip : Option IPv4), '\n' ∉ address → address ≠ [] → ∀ ls : List Text,
      sedAddress address ip (['\n'].intercalate ls) = ['\n'].intercalate (ls.map (sedAddress address ip)) := by
    intro address ip hn hne ls
    cases ip with
    | none =>
      have hsed : sedAddress address none = id := rfl
      rw [hsed, List.map_id]
      rfl
    | some x =>
      refine Pattern.subst_intercalate (fun a ha => ?_) (by simpa [Pattern.regex] using hne) _ ls
      obtain ⟨c, hc, rfl⟩ := List.mem_map.mp ha
      have hcn : '\n' ≠ c := fun e => hn (e ▸ hc)
      split
      · rfl
      · simpa [Atom.accepts] using hcn
  rw [hi, sedAddresses, ha _ _ (by decide) (by decide), ha _ _ (by decide) (by decide), List.map_map,
    List.map_map]
  rfl

/-- A text without a one in front of another is not rewritten. -/
theorem sedAddresses_append (env : Env) {w : Text} (h : '1' ∉ w) (t : Text) :
    sedAddresses env (w ++ t) = w ++ sedAddresses env t := by
  have hone : ∀ (address : Text) (ip : Option IPv4) (t : Text), sedAddress ('1' :: address) ip (w ++ t) =
      w ++ sedAddress ('1' :: address) ip t := by
    intro address ip t
    cases ip with
    | none => rfl
    | some x => exact Pattern.subst_append_of_notMem _ w t h
  rw [sedAddresses, sedAddresses]
  exact (congrArg _ (hone _ _ t)).trans (hone _ _ _)

/-- The interface line. -/
theorem rewriteLine_interface (env : Env) :
    rewriteLine env ("   interface ".toList ++ defaultInterface) =
      "   interface ".toList ++ sedAddresses env env.wantedInterface := by
  have hline : sedInterface env.interface ("   interface ".toList ++ defaultInterface) =
      "   interface ".toList ++ env.wantedInterface := by
    unfold sedInterface Env.wantedInterface
    by_cases h : env.interface = []
    · rw [if_neg (not_not.mpr h), if_pos h]
    · rw [if_pos h, if_neg h]
      have hm : (Pattern.regex "interface eth0".toList).Matches "interface eth0".toList :=
        Pattern.matches_regex (by decide)
      have hfront := Pattern.subst_append_of_notMem (a := 'i')
        (p := Pattern.regex "nterface eth0".toList) ("interface ".toList ++ env.interface)
        "   ".toList "interface eth0".toList (by decide)
      have hback := Pattern.subst_of_matches hm (by decide) ("interface ".toList ++ env.interface) []
      rw [List.append_nil, Pattern.subst_nil, List.append_nil] at hback
      exact hfront.trans (congrArg ("   ".toList ++ ·) hback)
  rw [rewriteLine, hline, sedAddresses_append env (by decide)]

/-- What becomes of the address of VI_1. -/
def writtenAddress1 (env : Env) : Text :=
  if env.virtualIp1 = some vip2 then (env.virtualIp2.map IPv4.text).getD vip2.text else env.wantedAddress1

theorem subst_match_front {p : Pattern} {w : Text} (h : p.Matches w) (hne : w ≠ []) (r : Text)
    {t : Text} (ht : p.occurs t = false) : p.subst r (w ++ t) = r ++ t := by
  rw [Pattern.subst_of_matches h hne, Pattern.subst_of_not_occurs _ ht]

theorem rewriteLine_address1 (env : Env) :
    rewriteLine env ("      ".toList ++ (defaultAddress1 ++ "/24".toList)) =
      "      ".toList ++ (writtenAddress1 env ++ "/24".toList) := by
  have h1 : sedAddress "192.168.1.200".toList env.virtualIp1 (defaultAddress1 ++ "/24".toList) =
      env.wantedAddress1 ++ "/24".toList := by
    unfold Env.wantedAddress1
    cases env.virtualIp1 with
    | none => rfl
    | some a => exact subst_match_front (Pattern.matches_regex (by decide)) (by decide) _ (by decide)
  have h2 : sedAddress "192.168.1.201".toList env.virtualIp2 (env.wantedAddress1 ++ "/24".toList) =
      writtenAddress1 env ++ "/24".toList := by
    unfold writtenAddress1
    by_cases h : env.virtualIp1 = some vip2
    · rw [if_pos h, Env.wantedAddress1, h]
      cases env.virtualIp2 with
      | none => rfl
      | some b => exact subst_match_front (Pattern.matches_regex (by decide)) (by decide) _ (by decide)
    · rw [if_neg h]
      refine sedAddress_of_not_occurs ?_ _
      unfold Env.wantedAddress1
      cases hv : env.virtualIp1 with
      | none => decide
      | some a =>
        refine (occurs_vip2 a).trans (decide_eq_false fun e => h ?_)
        rw [hv, e]
  rw [rewriteLine, sedInterface_of_not_occurs (by decide), sedAddresses_append env (by decide),
    sedAddresses, h1, h2]

theorem rewriteLine_address2 (env : Env) :
    rewriteLine env ("      ".toList ++ (defaultAddress2 ++ "/24".toList)) =
      "      ".toList ++ (env.wantedAddress2 ++ "/24".toList) := by
  have h1 : sedAddress "192.168.1.200".toList env.virtualIp1 (defaultAddress2 ++ "/24".toList) =
      defaultAddress2 ++ "/24".toList := sedAddress_of_not_occurs (by decide) _
  have h2 : sedAddress "192.168.1.201".toList env.virtualIp2 (defaultAddress2 ++ "/24".toList) =
      env.wantedAddress2 ++ "/24".toList := by
    unfold Env.wantedAddress2
    cases env.virtualIp2 with
    | none => rfl
    | some a => exact subst_match_front (Pattern.matches_regex (by decide)) (by decide) _ (by decide)
  rw [rewriteLine, sedInterface_of_not_occurs (by decide), sedAddresses_append env (by decide),
    sedAddresses, h1, h2]

/-! ### The whole file -/

theorem instance_rewrite (env : Env) {name state id priority pass address written : Text}
    (h : (instanceLines name state [] id priority pass []).all untouched = true)
    (haddr : rewriteLine env ("      ".toList ++ (address ++ "/24".toList)) =
      "      ".toList ++ (written ++ "/24".toList)) :
    (instanceLines name state defaultInterface id priority pass address).map (rewriteLine env) =
      instanceLines name state (sedAddresses env env.wantedInterface) id priority pass written := by
  simp only [instanceLines, List.all_cons, List.all_nil, Bool.and_eq_true, and_true] at h
  obtain ⟨h1, h2, -, h4, h5, h6, h7, h8, h9, h10, h11, -, -, h14, h15, -, h17⟩ := h
  have hu : ∀ {l : Text}, untouched l = true → rewriteLine env l = l :=
    fun hl => rewriteLine_of_untouched hl env
  simp only [instanceLines, List.map_cons, List.map_nil, rewriteLine_interface, haddr, hu h1, hu h2, hu h4,
    hu h5, hu h6, hu h7, hu h8, hu h9, hu h10, hu h11, hu h14, hu h15, hu h17]

theorem confLines_rewrite (env : Env) (master : Bool) :
    (confLines master defaultInterface defaultAddress1 defaultAddress2).map (rewriteLine env) =
      confLines master (sedAddresses env env.wantedInterface) (writtenAddress1 env) env.wantedAddress2 := by
  have hnil : rewriteLine env [] = [] := rewriteLine_of_untouched (by decide) env
  cases master with
  | true =>
    simp only [confLines, if_true, List.map_append, List.map_cons, hnil]
    rw [map_rewriteLine (by decide), instance_rewrite env (by decide) (rewriteLine_address1 env),
      instance_rewrite env (by decide) (rewriteLine_address2 env)]
  | false =>
    simp only [confLines, Bool.false_eq_true, if_false, List.map_append, List.map_cons, hnil]
    rw [map_rewriteLine (by decide), instance_rewrite env (by decide) (rewriteLine_address1 env),
      instance_rewrite env (by decide) (rewriteLine_address2 env)]

/-- What `start.sh` writes. -/
theorem start_eq (role : Text) (env : Env) (prev : Text) : start role env prev =
    confText (role = "master".toList) (sedAddresses env env.wantedInterface) (writtenAddress1 env)
      env.wantedAddress2 := by
  have hconf : (if role = "master".toList then masterConf else backupConf) =
      ['\n'].intercalate (confLines (role = "master".toList) defaultInterface defaultAddress1
        defaultAddress2) := by
    by_cases h : role = "master".toList
    · rw [if_pos h, decide_eq_true h]; rfl
    · rw [if_neg h, decide_eq_false h]; rfl
  unfold start
  rw [hconf, rewrite_intercalate, confLines_rewrite]
  rfl

/-! ### Reading a configuration -/

theorem newline_notMem_text (x : IPv4) : '\n' ∉ x.text := notMem_dotted (by decide) (by decide) _ _ _ _

theorem newline_notMem_wanted {ip : Option IPv4} {d : Text} (hd : '\n' ∉ d) :
    '\n' ∉ (ip.map IPv4.text).getD d := by
  cases ip with
  | none => exact hd
  | some x => exact newline_notMem_text x

theorem newline_notMem_instanceLines {name state i id priority pass a : Text}
    (h : ∀ t ∈ [name, state, i, id, priority, pass, a], '\n' ∉ t) :
    ∀ l ∈ instanceLines name state i id priority pass a, '\n' ∉ l := by
  simp only [List.forall_mem_cons] at h
  simp [instanceLines, h]

/-- The lines of a configuration can be told apart: interfaces and addresses
are texts without newlines. -/
theorem splitOn_confText {master : Bool} {i a1 a2 : Text} (hi : '\n' ∉ i) (h1 : '\n' ∉ a1) (h2 : '\n' ∉ a2) :
    (confText master i a1 a2).splitOn '\n' = confLines master i a1 a2 := by
  have hglobal : ∀ t ∈ ["NGINX_MASTER".toList, "NGINX_BACKUP".toList], ∀ l ∈ globalLines t, '\n' ∉ l := by
    decide
  refine List.splitOn_intercalate '\n' (fun l hl => ?_) ?_
  · cases master with
    | true =>
      rcases List.mem_append.mp hl with hl | hl
      · exact hglobal _ (by simp) l hl
      · rcases List.mem_append.mp hl with hl | hl
        · exact newline_notMem_instanceLines (by simp [hi, h1]) l hl
        · rcases List.mem_cons.mp hl with rfl | hl
          · exact List.not_mem_nil
          · exact newline_notMem_instanceLines (by simp [hi, h2]) l hl
    | false =>
      rcases List.mem_append.mp hl with hl | hl
      · exact hglobal _ (by simp) l hl
      · rcases List.mem_append.mp hl with hl | hl
        · exact newline_notMem_instanceLines (by simp [hi, h1]) l hl
        · rcases List.mem_cons.mp hl with rfl | hl
          · exact List.not_mem_nil
          · exact newline_notMem_instanceLines (by simp [hi, h2]) l hl
  · cases master <;> simp [confLines, globalLines]

/-- The interface and the address of VI_1 stand in lines of their own. -/
theorem confText_inj {master : Bool} {i j a b c : Text} (hi : '\n' ∉ i) (hj : '\n' ∉ j) (ha : '\n' ∉ a)
    (hb : '\n' ∉ b) (hc : '\n' ∉ c) (h : confText master i a c = confText master j b c) : i = j ∧ a = b := by
  have hl : confLines master i a c = confLines master j b c := by
    rw [← splitOn_confText hi ha hc, ← splitOn_confText hj hb hc, h]
  have h16 : "   interface ".toList ++ i = "   interface ".toList ++ j := by
    cases master <;> exact Option.some.inj (congrArg (·[16]?) hl)
  have h25 : "      ".toList ++ (a ++ "/24".toList) = "      ".toList ++ (b ++ "/24".toList) := by
    cases master <;> exact Option.some.inj (congrArg (·[25]?) hl)
  exact ⟨List.append_cancel_left h16, List.append_cancel_right (List.append_cancel_left h25)⟩

theorem interface_ne_routerId (i id : Text) :
    "   interface ".toList ++ i ≠ "   virtual_router_id ".toList ++ id := by
  intro h
  cases Option.some.inj (congrArg (·[3]?) h)

theorem address_ne_routerId (a id : Text) :
    "      ".toList ++ a ≠ "   virtual_router_id ".toList ++ id := by
  intro h
  cases Option.some.inj (congrArg (·[3]?) h)

/-- The lines in front of a router's identifier are skipped. -/
theorem routerAddress_eq {id conf : Text} (ks post : List Text)
    (hs : conf.splitOn '\n' = ks ++ ("   virtual_router_id ".toList ++ id) :: post)
    (h : ∀ k ∈ ks, k ≠ "   virtual_router_id ".toList ++ id) :
    routerAddress id conf = ((("   virtual_router_id ".toList ++ id) :: post).dropWhile
      (· ≠ "   virtual_ipaddress \x7b".toList))[1]? := by
  unfold routerAddress
  rw [hs]
  generalize "   virtual_router_id ".toList ++ id = l at h ⊢
  rw [List.dropWhile_append_of_pos (fun k hk => by simpa using h k hk), List.dropWhile_cons_of_neg (by simp)]

/-- The first three lines of an instance. -/
def instanceHead (name state i : Text) : List Text := (instanceLines name state i [] [] [] []).take 3

/-- None of them is the identifier. -/
theorem head_ne_routerId (i : Text) : ∀ name ∈ ["VI_1".toList, "VI_2".toList],
    ∀ state ∈ ["MASTER".toList, "BACKUP".toList], ∀ id ∈ ["51".toList, "52".toList],
    ∀ l ∈ instanceHead name state i, l ≠ "   virtual_router_id ".toList ++ id := by
  have hclosed : ∀ name ∈ ["VI_1".toList, "VI_2".toList], ∀ state ∈ ["MASTER".toList, "BACKUP".toList],
      ∀ id ∈ ["51".toList, "52".toList], ∀ l ∈ (instanceLines name state [] [] [] [] []).take 2,
        l ≠ "   virtual_router_id ".toList ++ id := by decide
  intro name hname state hstate id hid l hl
  rcases List.mem_append.mp (show l ∈ (instanceLines name state [] [] [] [] []).take 2 ++
    ["   interface ".toList ++ i] from hl) with hl | hl
  · exact hclosed name hname state hstate id hid l hl
  · rw [List.mem_singleton.mp hl]
    exact interface_ne_routerId i id

/-- No line of the first instance is the identifier of the second one. -/
theorem instance_ne_routerId (i a : Text) : ∀ state ∈ ["MASTER".toList, "BACKUP".toList],
    ∀ priority ∈ ["100".toList, "90".toList],
    ∀ l ∈ instanceLines "VI_1".toList state i "51".toList priority "1111".toList a,
      l ≠ "   virtual_router_id ".toList ++ "52".toList := by
  have hclosed : ∀ state ∈ ["MASTER".toList, "BACKUP".toList], ∀ priority ∈ ["100".toList, "90".toList],
      ∀ l ∈ instanceLines "VI_1".toList state [] "51".toList priority "1111".toList [],
        l ≠ "   virtual_router_id ".toList ++ "52".toList := by decide
  intro state hstate priority hpriority
  have hall := hclosed state hstate priority hpriority
  unfold instanceLines at hall ⊢
  simp only [List.forall_mem_cons] at hall ⊢
  obtain ⟨h1, h2, -, h4, h5, h6, h7, h8, h9, h10, h11, -, h13⟩ := hall
  exact ⟨h1, h2, interface_ne_routerId i _, h4, h5, h6, h7, h8, h9, h10, h11, address_ne_routerId _ _, h13⟩

theorem global_ne_routerId : ∀ t ∈ ["NGINX_MASTER".toList, "NGINX_BACKUP".toList],
    ∀ id ∈ ["51".toList, "52".toList], ∀ l ∈ globalLines t, l ≠ "   virtual_router_id ".toList ++ id := by
  decide

/-- The address of each virtual router, read back. -/
theorem routerAddress_confText {master : Bool} {i a1 a2 : Text} (hi : '\n' ∉ i) (h1 : '\n' ∉ a1)
    (h2 : '\n' ∉ a2) :
    routerAddress "51".toList (confText master i a1 a2) = some ("      ".toList ++ (a1 ++ "/24".toList)) ∧
    routerAddress "52".toList (confText master i a1 a2) = some ("      ".toList ++ (a2 ++ "/24".toList)) := by
  have hs : (confText master i a1 a2).splitOn '\n' = confLines master i a1 a2 := splitOn_confText hi h1 h2
  cases master with
  | true =>
    constructor
    · exact (routerAddress_eq (globalLines "NGINX_MASTER".toList ++ instanceHead "VI_1".toList "MASTER".toList i)
        ((confLines true i a1 a2).drop 18) hs (List.forall_mem_append.mpr
          ⟨global_ne_routerId _ (by simp) _ (by simp), head_ne_routerId i _ (by simp) _ (by simp) _ (by simp)⟩)).trans rfl
    · exact (routerAddress_eq (globalLines "NGINX_MASTER".toList ++ (instanceLines "VI_1".toList "MASTER".toList i
        "51".toList "100".toList "1111".toList a1 ++ [] :: instanceHead "VI_2".toList "BACKUP".toList i))
        ((confLines true i a1 a2).drop 36) hs (List.forall_mem_append.mpr
          ⟨global_ne_routerId _ (by simp) _ (by simp), List.forall_mem_append.mpr
            ⟨instance_ne_routerId i a1 _ (by simp) _ (by simp), List.forall_mem_cons.mpr
              ⟨by decide, head_ne_routerId i _ (by simp) _ (by simp) _ (by simp)⟩⟩⟩)).trans rfl
  | false =>
    constructor
    · exact (routerAddress_eq (globalLines "NGINX_BACKUP".toList ++ instanceHead "VI_1".toList "BACKUP".toList i)
        ((confLines false i a1 a2).drop 18) hs (List.forall_mem_append.mpr
          ⟨global_ne_routerId _ (by simp) _ (by simp), head_ne_routerId i _ (by simp) _ (by simp) _ (by simp)⟩)).trans rfl
    · exact (routerAddress_eq (globalLines "NGINX_BACKUP".toList ++ (instanceLines "VI_1".toList "BACKUP".toList i
        "51".toList "90".toList "1111".toList a1 ++ [] :: instanceHead "VI_2".toList "MASTER".toList i))
        ((confLines false i a1 a2).drop 36) hs (List.forall_mem_append.mpr
          ⟨global_ne_routerId _ (by simp) _ (by simp), List.forall_mem_append.mpr
            ⟨instance_ne_routerId i a1 _ (by simp) _ (by simp), List.forall_mem_cons.mpr
              ⟨by decide, head_ne_routerId i _ (by simp) _ (by simp) _ (by simp)⟩⟩⟩)).trans rfl

/-! ### Simultaneous substitution -/

theorem newline_notMem_interface (env : Env) : '\n' ∉ env.wantedInterface := by
  unfold Env.wantedInterface
  split
  · decide
  · exact env.newline

theorem newline_notMem_writtenAddress1 (env : Env) : '\n' ∉ writtenAddress1 env := by
  unfold writtenAddress1
  split
  · exact newline_notMem_wanted (newline_notMem_text vip2)
  · exact newline_notMem_wanted (by decide)

/-- A text without a newline gets none from the rewritings. -/
theorem newline_notMem_sedAddresses (env : Env) {t : Text} (h : '\n' ∉ t) : '\n' ∉ sedAddresses env t := by
  have hsubst : ∀ (p : Pattern) (r : Text), '\n' ∉ r → ∀ (t : Text) (k : ℕ), '\n' ∉ t →
      '\n' ∉ p.substFrom r k t := by
    intro p r hr t
    induction t with
    | nil => intro k _; cases k <;> exact List.not_mem_nil
    | cons c t ih =>
      intro k ht
      rw [List.mem_cons, not_or] at ht
      cases k with
      | zero =>
        rw [Pattern.substFrom]
        split
        · rw [List.mem_append, not_or]
          exact ⟨hr, ih _ ht.2⟩
        · rw [List.mem_cons, not_or]
          exact ⟨ht.1, ih _ ht.2⟩
      | succ k => exact ih k ht.2
  have hsed : ∀ (address : Text) (ip : Option IPv4) (t : Text), '\n' ∉ t → '\n' ∉ sedAddress address ip t := by
    intro address ip t ht
    cases ip with
    | none => exact ht
    | some x => exact hsubst _ _ (newline_notMem_text x) t 0 ht
  exact hsed _ _ _ (hsed _ _ _ h)

/-- The interface survives exactly when the given one does. -/
theorem sedAddresses_interface (env : Env) :
    sedAddresses env env.wantedInterface = env.wantedInterface ↔
      sedAddresses env env.interface = env.interface := by
  by_cases h : env.interface = []
  · have hw : env.wantedInterface = defaultInterface := if_pos h
    have hkeep : ∀ t : Text, untouched t = true → sedAddresses env t = t := by
      intro t ht
      simp only [untouched, Bool.and_eq_true, Bool.not_eq_true'] at ht
      rw [sedAddresses, sedAddress_of_not_occurs ht.1.2, sedAddress_of_not_occurs ht.2]
    have hdefault : sedAddresses env defaultInterface = defaultInterface := hkeep _ (by decide)
    have hnil : sedAddresses env [] = [] := hkeep _ (by decide)
    rw [hw, h]
    exact iff_of_true hdefault hnil
  · have hw : env.wantedInterface = env.interface := if_neg h
    rw [hw]

/-- The address of VI_1 survives unless it is the second default address and
that is replaced by another one. -/
theorem writtenAddress1_eq (env : Env) : writtenAddress1 env = env.wantedAddress1 ↔
    ∀ b, env.virtualIp1 = some vip2 → env.virtualIp2 = some b → b = vip2 := by
  unfold writtenAddress1
  by_cases h : env.virtualIp1 = some vip2
  · rw [if_pos h, Env.wantedAddress1, h]
    cases env.virtualIp2 with
    | none => exact iff_of_true rfl fun _ _ hb => absurd hb (by simp)
    | some b =>
      change b.text = vip2.text ↔ _
      constructor
      · intro e c _ hc
        rw [← Option.some.inj hc]
        exact text_inj e
      · intro e
        rw [e b rfl rfl]
  · rw [if_neg h]
    exact iff_of_true rfl fun _ h' => absurd h' h

/-- In every role, and whatever the file held before. -/
theorem start_eq_configured_iff (role : Text) (env : Env) (prev : Text) :
    start role env prev = configured role env ↔ env.Apart := by
  have hw1 : '\n' ∉ env.wantedAddress1 := newline_notMem_wanted (by decide)
  have hw2 : '\n' ∉ env.wantedAddress2 := newline_notMem_wanted (by decide)
  rw [start_eq, configured, Env.Apart, ← sedAddresses_interface, ← writtenAddress1_eq]
  constructor
  · exact confText_inj (newline_notMem_sedAddresses env (newline_notMem_interface env))
      (newline_notMem_interface env) (newline_notMem_writtenAddress1 env) hw1 hw2
  · rintro ⟨hi, ha⟩
    rw [hi, ha]

/-- The configuration is the simultaneous substitution in every role; nodes
of different roles agree on the address of each virtual router; and the two
routers have different addresses if different ones are asked for. -/
def Simultaneous (env : Env) : Prop :=
  (∀ role prev, start role env prev = configured role env) ∧
  (∀ role role' prev prev', ∀ id ∈ ["51".toList, "52".toList],
    routerAddress id (start role env prev) = routerAddress id (start role' env prev')) ∧
  (∀ role prev a b, env.virtualIp1 = some a → env.virtualIp2 = some b → a ≠ b →
    routerAddress "51".toList (start role env prev) ≠ routerAddress "52".toList (start role env prev))

/-- **The configuration is the simultaneous substitution exactly when no
rewriting meets what an earlier one wrote.** -/
theorem start_exact (env : Env) : Simultaneous env ↔ env.Apart := by
  constructor
  · exact fun h => (start_eq_configured_iff [] env []).mp (h.1 [] [])
  · intro h
    have hstart : ∀ role prev, start role env prev = configured role env :=
      fun role prev => (start_eq_configured_iff role env prev).mpr h
    have haddr : ∀ role prev,
        routerAddress "51".toList (start role env prev) = some ("      ".toList ++ (env.wantedAddress1 ++ "/24".toList)) ∧
        routerAddress "52".toList (start role env prev) = some ("      ".toList ++ (env.wantedAddress2 ++ "/24".toList)) := by
      intro role prev
      rw [hstart]
      exact routerAddress_confText (newline_notMem_interface env) (newline_notMem_wanted (by decide))
        (newline_notMem_wanted (by decide))
    refine ⟨hstart, ?_, ?_⟩
    · intro role role' prev prev' id hid
      rcases List.mem_cons.mp hid with rfl | hid
      · rw [(haddr role prev).1, (haddr role' prev').1]
      · rw [List.mem_singleton.mp hid, (haddr role prev).2, (haddr role' prev').2]
    · intro role prev a b ha hb hne heq
      rw [(haddr role prev).1, (haddr role prev).2, Env.wantedAddress1, Env.wantedAddress2, ha, hb,
        Option.some.injEq] at heq
      exact hne (text_inj (List.append_cancel_right (List.append_cancel_left heq)))

/-- The first router is asked to take the second default address. -/
def shiftedEnv : Env where
  interface := []
  virtualIp1 := some (.of 192 168 1 201)
  virtualIp2 := some (.of 192 168 1 202)
  slash := by decide
  ampersand := by decide
  backslash := by decide
  newline := by decide

/-- Both routers then get the address of the second one. -/
theorem start_shifted : ¬ ∀ env : Env, Simultaneous env := by
  intro h
  have hsame : routerAddress "51".toList (start "master".toList shiftedEnv []) =
      routerAddress "52".toList (start "master".toList shiftedEnv []) := by decide
  exact (h shiftedEnv).2.2 "master".toList [] _ _ rfl rfl (by decide) hsame

end Keepalived
end OpsScripts
