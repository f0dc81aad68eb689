/-
# The abnormal network connections of `detect_anomaly.sh`

```
netstat -antup | grep -E '(ESTABLISHED|LISTEN)' | grep -v -E '(127.0.0.1|::1)'
```

The report should hold the sockets that listen or are connected and have no
loopback address at either end. The pipeline looks for words in the whole
line instead, and a dot in the expression stands for any character. It is
exact for a list of sockets if and only if every socket of it is `Clear`: its
line holds one of the two loopback words exactly when one of its ends is a
loopback address.

`:::1024` holds `::1`, so a listener on every address is hidden if its port
starts with a one (`hidden_of_port_one`).

Key definitions: `Socket.line`, `abnormalConnections`, `Socket.external`,
`Socket.Clear`.
Key theorems: `abnormalConnections_exact`, `hidden_of_port_one`.
-/
import OpsScripts.Inet
import OpsScripts.Pattern

namespace OpsScripts
namespace Croner

/-! ### What `netstat -antup` prints -/

/-- The states of a TCP socket. -/
inductive TcpState
  | established | synSent | synRecv | finWait1 | finWait2 | timeWait
  | close | closeWait | lastAck | listen | closing | unknown
  deriving DecidableEq

/-- The name of a state. -/
def TcpState.text : TcpState → Text
  | established => "ESTABLISHED".toList
  | synSent => "SYN_SENT".toList
  | synRecv => "SYN_RECV".toList
  | finWait1 => "FIN_WAIT1".toList
  | finWait2 => "FIN_WAIT2".toList
  | timeWait => "TIME_WAIT".toList
  | close => "CLOSE".toList
  | closeWait => "CLOSE_WAIT".toList
  | lastAck => "LAST_ACK".toList
  | listen => "LISTEN".toList
  | closing => "CLOSING".toList
  | unknown => "UNKNOWN".toList

/-- One end of a socket; no port is printed as `*`. -/
structure Endpoint where
  addr : Addr
  port : Option (Fin 65536)

def Endpoint.portText (e : Endpoint) : Text :=
  match e.port with
  | some n => decimal n
  | none => ['*']

def Endpoint.text (e : Endpoint) : Text := e.addr.text ++ ':' :: e.portText

/-- A TCP socket. `gap` is how many blanks more than one stand between two
columns of its line. -/
structure Socket where
  recvQ : ℕ
  sendQ : ℕ
  near : Endpoint
  far : Endpoint
  state : TcpState
  program : Text
  gap : Fin 6 → ℕ
  program_line : '\n' ∉ program

namespace Socket

/-- The first column. -/
def proto (s : Socket) : Text :=
  match s.near.addr with
  | .v4 _ => "tcp".toList
  | .v6 _ => "tcp6".toList

/-- The line of a socket. -/
def line (s : Socket) : Text :=
  s.proto ++ blanks (s.gap 0) ++ (decimal s.recvQ ++ blanks (s.gap 1) ++ (decimal s.sendQ ++
    blanks (s.gap 2) ++ (s.near.text ++ blanks (s.gap 3) ++ (s.far.text ++ blanks (s.gap 4) ++
      (s.state.text ++ blanks (s.gap 5) ++ s.program)))))

end Socket

/-- The two lines above the table. -/
def netstatHeader : List Text :=
  ["Active Internet connections (servers and established)".toList,
    "Proto Recv-Q Send-Q Local Address           Foreign Address         State       PID/Program name".toList]

/-- The output of `netstat -antup`. -/
def netstatText (ss : List Socket) : Text := unlines (netstatHeader ++ ss.map Socket.line)

/-! ### The pipeline -/

/-- `(ESTABLISHED|LISTEN)`. -/
def activeWords : List Pattern := [.regex "ESTABLISHED".toList, .regex "LISTEN".toList]

/-- `(127.0.0.1|::1)`. -/
def loopbackWords : List Pattern := [.regex "127.0.0.1".toList, .regex "::1".toList]

/-- What is written under the heading `异常的网络连接:`. -/
def abnormalConnections (netstat : Text) : Text := grepV loopbackWords (grep activeWords netstat)

def mentionsActive (l : Text) : Bool := activeWords.any (·.occurs l)

def mentionsLoopback (l : Text) : Bool := loopbackWords.any (·.occurs l)

/-! ### What is due -/

namespace Socket

/-- The socket listens or is connected. -/
def active (s : Socket) : Bool := decide (s.state = .established) || decide (s.state = .listen)

/-- One of its ends is a loopback address. -/
def hasLoopback (s : Socket) : Bool := s.near.addr.loopback || s.far.addr.loopback

/-- The socket belongs into the report. -/
def external (s : Socket) : Bool := s.active && !s.hasLoopback

/-- The pipeline lets the socket's line through. -/
def reported (s : Socket) : Bool := mentionsActive s.line && !mentionsLoopback s.line

/-- The words of the line agree with the addresses: an active socket's line
holds a loopback word exactly when an end is a loopback address, and another
one's holds no word of an active state, or a loopback word too. -/
def Clear (s : Socket) : Prop :=
  if s.active then (mentionsLoopback s.line = true ↔ s.hasLoopback = true)
  else (mentionsActive s.line = true → mentionsLoopback s.line = true)

end Socket

/-! ### The columns -/

theorem foreign_space : Foreign ' ' := ⟨by decide, by decide, by decide, by decide⟩

theorem foreign_tab : Foreign '\t' := ⟨by decide, by decide, by decide, by decide⟩

theorem foreign_newline : Foreign '\n' := ⟨by decide, by decide, by decide, by decide⟩

theorem notMem_portText {c : Char} (hd : c.isDigit = false) (hs : c ≠ '*') (e : Endpoint) :
    c ∉ e.portText := by
  unfold Endpoint.portText
  split
  · exact notMem_decimal hd _
  · simpa using hs

theorem notMem_endpoint {c : Char} (h : Foreign c) (hs : c ≠ '*') (e : Endpoint) : c ∉ e.text := by
  simp [Endpoint.text, e.addr.notMem_text h, h.colon, notMem_portText h.digit hs]

/-- A text without spaces and tabs is one column. -/
theorem isBlank_of_notMem {w : Text} (hs : ' ' ∉ w) (ht : '\t' ∉ w) : ∀ c ∈ w, isBlank c = false := by
  intro c hc
  have h1 : c ≠ ' ' := fun e => hs (e ▸ hc)
  have h2 : c ≠ '\t' := fun e => ht (e ▸ hc)
  simp [isBlank, h1, h2]

theorem endpoint_column (e : Endpoint) : (∀ c ∈ e.text, isBlank c = false) ∧ e.text ≠ [] :=
  ⟨isBlank_of_notMem (notMem_endpoint foreign_space (by decide) e)
    (notMem_endpoint foreign_tab (by decide) e), by simp [Endpoint.text]⟩

theorem decimal_column (n : ℕ) : (∀ c ∈ decimal n, isBlank c = false) ∧ decimal n ≠ [] :=
  ⟨isBlank_of_notMem (notMem_decimal (by decide) n) (notMem_decimal (by decide) n), decimal_ne_nil n⟩

theorem proto_column (s : Socket) : (∀ c ∈ s.proto, isBlank c = false) ∧ s.proto ≠ [] := by
  unfold Socket.proto
  split
  · exact ⟨isBlank_of_notMem (by decide) (by decide), by decide⟩
  · exact ⟨isBlank_of_notMem (by decide) (by decide), by decide⟩

theorem state_column (q : TcpState) : (∀ c ∈ q.text, isBlank c = false) ∧ q.text ≠ [] := by
  cases q <;> exact ⟨isBlank_of_notMem (by decide) (by decide), by decide⟩

/-- The first six words of a line are its columns. -/
theorem words_line (s : Socket) : words s.line =
    s.proto :: decimal s.recvQ :: decimal s.sendQ :: s.near.text :: s.far.text :: s.state.text ::
      words s.program := by
  rw [Socket.line, words_blanks _ _ _ (proto_column s).1 (proto_column s).2,
    words_blanks _ _ _ (decimal_column _).1 (decimal_column _).2,
    words_blanks _ _ _ (decimal_column _).1 (decimal_column _).2,
    words_blanks _ _ _ (endpoint_column _).1 (endpoint_column _).2,
    words_blanks _ _ _ (endpoint_column _).1 (endpoint_column _).2,
    words_blanks _ _ _ (state_column _).1 (state_column _).2]

theorem newline_notMem_line (s : Socket) : '\n' ∉ s.line := by
  have hb : ∀ n, '\n' ∉ blanks n := fun n h => absurd (mem_blanks h) (by decide)
  have hp : '\n' ∉ s.proto := by unfold Socket.proto; split <;> decide
  have hq : '\n' ∉ s.state.text := by cases s.state <;> decide
  simp only [Socket.line, List.mem_append, not_or]
  exact ⟨⟨hp, hb _⟩, ⟨notMem_decimal (by decide) _, hb _⟩, ⟨notMem_decimal (by decide) _, hb _⟩,
    ⟨notMem_endpoint foreign_newline (by decide) _, hb _⟩,
    ⟨notMem_endpoint foreign_newline (by decide) _, hb _⟩, ⟨hq, hb _⟩, s.program_line⟩

/-! ### The line shows what is due -/

/-- What stands before the last colon of a column. -/
def hostText (w : Text) : Text := (w.rdropWhile (· ≠ ':')).dropLast

theorem hostText_endpoint (e : Endpoint) : hostText e.text = e.addr.text := by
  have hport : ∀ c ∈ e.portText.reverse, decide (c ≠ ':') = true := fun c hc => by
    simpa using fun h : c = ':' =>
      notMem_portText (c := ':') (by decide) (by decide) e (h ▸ List.mem_reverse.mp hc)
  rw [hostText, Endpoint.text, List.rdropWhile, List.reverse_append, List.reverse_cons, List.append_assoc,
    List.dropWhile_append_of_pos hport, List.singleton_append, List.dropWhile_cons_of_neg (by simp),
    List.reverse_cons, List.reverse_reverse, List.dropLast_concat]

/-- What is due, from the text of a line. -/
def externalLine (l : Text) : Bool :=
  (decide ((words l).getD 5 [] = "ESTABLISHED".toList) || decide ((words l).getD 5 [] = "LISTEN".toList)) &&
    !(loopbackText (hostText ((words l).getD 3 [])) || loopbackText (hostText ((words l).getD 4 [])))

theorem external_eq_line (s : Socket) : s.external = externalLine s.line := by
  have hstate : s.active =
      (decide (s.state.text = "ESTABLISHED".toList) || decide (s.state.text = "LISTEN".toList)) := by
    unfold Socket.active
    cases s.state <;> decide
  have hloop : s.hasLoopback =
      (loopbackText (hostText s.near.text) || loopbackText (hostText s.far.text)) := by
    rw [Socket.hasLoopback, hostText_endpoint, hostText_endpoint, Addr.loopback_eq_text,
      Addr.loopback_eq_text]
  rw [Socket.external, hstate, hloop, externalLine, words_line]
  rfl

/-- The line of an active socket holds the name of its state. -/
theorem mentionsActive_of_active {s : Socket} (h : s.active = true) : mentionsActive s.line = true := by
  have hin : s.state.text <:+: s.line := by
    refine ⟨s.proto ++ blanks (s.gap 0) ++ decimal s.recvQ ++ blanks (s.gap 1) ++ decimal s.sendQ ++
      blanks (s.gap 2) ++ s.near.text ++ blanks (s.gap 3) ++ s.far.text ++ blanks (s.gap 4),
      blanks (s.gap 5) ++ s.program, ?_⟩
    simp only [Socket.line, List.append_assoc]
  simp only [Socket.active, Bool.or_eq_true, decide_eq_true_eq] at h
  rw [mentionsActive, List.any_eq_true]
  rcases h with h | h
  · rw [h] at hin
    exact ⟨_, List.mem_cons_self, (Pattern.occurs_literal _ _).mpr hin⟩
  · rw [h] at hin
    exact ⟨_, List.mem_cons_of_mem _ List.mem_cons_self, (Pattern.occurs_literal _ _).mpr hin⟩

/-- A clear socket is reported exactly when it should be. -/
theorem Socket.clear_iff (s : Socket) : s.Clear ↔ s.reported = s.external := by
  unfold Clear reported external
  by_cases ha : s.active = true
  · rw [if_pos ha, mentionsActive_of_active ha, ha, Bool.true_and, Bool.true_and, ← Bool.eq_iff_iff,
      Bool.not_inj_iff]
  · rw [if_neg ha, Bool.eq_false_iff.mpr ha, Bool.false_and, Bool.and_eq_false_imp,
      Bool.not_eq_false']

/-! ### The report -/

theorem unlines_inj {ls ks : List Text} (hl : ∀ l ∈ ls, '\n' ∉ l) (hk : ∀ k ∈ ks, '\n' ∉ k)
    (h : unlines ls = unlines ks) : ls = ks := by
  rw [← lines_unlines ls hl, ← lines_unlines ks hk, h]

/-- The report is the lines of the sockets that are let through; the header
is not. -/
theorem abnormalConnections_netstat (ss : List Socket) :
    abnormalConnections (netstatText ss) = unlines ((ss.filter Socket.reported).map Socket.line) := by
  have hlines : ∀ l ∈ netstatHeader ++ ss.map Socket.line, '\n' ∉ l := by
    intro l hl
    rcases List.mem_append.mp hl with hl | hl
    · simp only [netstatHeader, List.mem_cons, List.not_mem_nil, or_false] at hl
      rcases hl with rfl | rfl
      · decide
      · decide
    · obtain ⟨s, -, rfl⟩ := List.mem_map.mp hl
      exact newline_notMem_line s
  have hhead : netstatHeader.filter mentionsActive = [] := by decide
  have hgrep : grep activeWords (netstatText ss) =
      unlines ((ss.map Socket.line).filter mentionsActive) := by
    rw [netstatText, grep_unlines _ _ hlines]
    change unlines ((netstatHeader ++ ss.map Socket.line).filter mentionsActive) = _
    rw [List.filter_append, hhead, List.nil_append]
  rw [abnormalConnections, hgrep, grepV_unlines]
  · change unlines (((ss.map Socket.line).filter mentionsActive).filter fun l => !mentionsLoopback l) = _
    rw [List.filter_filter, List.filter_map]
    congr 2
    refine List.filter_congr fun s _ => ?_
    simp [Socket.reported, Bool.and_comm]
  · exact fun l hl => hlines l (List.mem_append_right _ (List.mem_of_mem_filter hl))

/-- The unspecified IPv6 address. -/
def anyAddr : Addr := .v6 ⟨fun _ => 0⟩

/-- An sshd that listens on every address, on port 1022. -/
def hiddenListener : Socket where
  recvQ := 0
  sendQ := 0
  near := ⟨anyAddr, some 1022⟩
  far := ⟨anyAddr, none⟩
  state := .listen
  program := "812/sshd".toList
  gap := fun _ => 2
  program_line := by decide

/-- Every listener on all addresses is hidden if its port starts with a one,
though it belongs into the report. -/
theorem hidden_of_port_one {s : Socket} {n : Fin 65536} {t : Text} (ha : s.near.addr = anyAddr)
    (hp : s.near.port = some n) (hn : decimal n = '1' :: t) (hfar : s.far.addr = anyAddr)
    (hs : s.state = .listen) : s.external = true ∧ s.reported = false := by
  have hloop : anyAddr.loopback = false := by decide
  have htext : anyAddr.text = "::".toList := by decide
  have hnear : s.near.text = "::".toList ++ ':' :: '1' :: t := by
    rw [Endpoint.text, Endpoint.portText, hp, ha, htext, ← hn]
  have hin : "::1".toList <:+: s.line := by
    refine ⟨s.proto ++ blanks (s.gap 0) ++ decimal s.recvQ ++ blanks (s.gap 1) ++ decimal s.sendQ ++
      blanks (s.gap 2) ++ [':'], t ++ blanks (s.gap 3) ++ s.far.text ++ blanks (s.gap 4) ++
        s.state.text ++ blanks (s.gap 5) ++ s.program, ?_⟩
    rw [Socket.line, hnear]
    simp
  have hment : mentionsLoopback s.line = true := by
    rw [mentionsLoopback, List.any_eq_true]
    exact ⟨_, List.mem_cons_of_mem _ List.mem_cons_self, (Pattern.occurs_literal _ _).mpr hin⟩
  refine ⟨?_, ?_⟩
  · rw [Socket.external, Socket.active, Socket.hasLoopback, ha, hfar, hloop, hs]
    decide
  · rw [Socket.reported, hment, Bool.not_true, Bool.and_false]

end Croner
end OpsScripts
