import Hipft.Client.Download
import Hipft.Foundation.Transitions

/-! # The loop of the client

One download after the other over one connection. Between two calls of `recv_msg` the client
waits for nothing, so its step is to take the next message.
-/

namespace Hipft

open CMemory Transitions

/-- What `main` is called with and draws, and what the requests that are freed have in them in
each of its cycles. -/
structure Caller where
  file : Bytes
  numDownloads : Nat
  selfID : Nat → UInt64
  msgID : Nat → UInt32
  stale : Nat → UInt64

/-- The call of `recv_msg` that the client is in, with the locals that are used behind it. -/
inductive Stage
  | establishing
  | gathering (otherID numfilepcks numpcks : UInt64) (g : Gather)
  | repairing (otherID numfilepcks : UInt64) (g : Gather)
  | ceasing
  | closed
  deriving DecidableEq

/-- The client with what it has sent, and what each `gather_file` that returned true has
written. -/
structure Client where
  cycle : Nat
  selfID : UInt64
  stage : Stage
  sent : List Msg
  files : List OutFile

namespace Client

/-- `MAX_SIZE`. -/
def maxSize : UInt64 := 8000

/-- Form a control message and send it. -/
def send (caller : Caller) (otherID : UInt64) (dataType : DataType) (segmentNum : UInt64)
    (content : Bytes) (c : Client) : CRun Client := do
  let sent ← request caller.msgID c.sent c.selfID otherID dataType segmentNum content
    (UInt32.ofNat content.length)
  pure { c with sent }

/-- The request that `establish_channel` and `ready_channel` send. -/
def sendFile (caller : Caller) (otherID : UInt64) (dataType : DataType) (c : Client) :
    CRun Client :=
  c.send caller otherID dataType maxSize caller.file

/-- The head of the loop of `main`: the next `establish_channel`, or `cease_connection`. -/
def begin (caller : Caller) (c : Client) : CRun Client :=
  if c.cycle < caller.numDownloads ∨ caller.numDownloads = 0 then
    { c with selfID := caller.selfID c.cycle, stage := .establishing }.sendFile caller 0 .syn
  else { c with selfID := 0, stage := .closed }.send caller 0 .fin 0 []

/-- `cease_channel`. -/
def cease (caller : Caller) (otherID : UInt64) (c : Client) : CRun Client :=
  { c with stage := .ceasing }.send caller otherID .fin 0 []

/-- The head of the second loop of `gather_file`. -/
def repair (caller : Caller) (otherID numfilepcks : UInt64) (g : Gather) (c : Client) :
    CRun Client :=
  match getPieceInSection g.retransSec 0 with
  | none => { c with files := c.files ++ [g.file] }.cease caller otherID
  | some _ =>
      { c with stage := .repairing otherID numfilepcks g }.send caller otherID .rts
        (firstLowInSection g.retransSec) []

/-- The beginning of `gather_file`. -/
def gather (caller : Caller) (otherID numfilepcks : UInt64) (c : Client) : CRun Client :=
  if numfilepcks = 0 then c.cease caller otherID
  else pure { c with stage := .gathering otherID numfilepcks 0 .start }

/-- `recv_msg` returns, and the client goes on as far as the next call. -/
def receive (caller : Caller) (recv : Msg) (c : Client) : CRun Client :=
  match c.stage with
  | .establishing => do
      let valid ← verifyMsg recv
      if valid then do
        let otherID := recv.head.sendID
        let c ← c.sendFile caller otherID .syn
        c.gather caller otherID (if otherID = 0 then 0 else caller.stale c.cycle)
      else c.sendFile caller 0 .rts
  | .gathering otherID numfilepcks numpcks g => do
      let g ← gatherPacket numpcks recv g
      if numpcks + 1 ≤ numfilepcks then
        pure { c with stage := .gathering otherID numfilepcks (numpcks + 1) g }
      else c.repair caller otherID numfilepcks g
  | .repairing otherID numfilepcks g => do
      let g ← gatherAnswer maxSize numfilepcks recv g
      c.repair caller otherID numfilepcks g
  | .ceasing => do
      -- The result is not looked at.
      let _ ← verifyMsg recv
      { c with cycle := c.cycle + 1 }.begin caller
  | .closed => pure c

/-- The client that is connected. -/
def start (caller : Caller) : CRun Client :=
  begin caller ⟨0, 0, .closed, [], []⟩

end Client

/-! ## Its loops as they are written -/

section Loops

variable {caller : Caller} {otherID maxSize numfilepcks numpcks : UInt64} {g g' : Gather}

theorem Client.repair_stage (c : Client) (stage : Stage) :
    { c with stage }.repair caller otherID numfilepcks g =
      c.repair caller otherID numfilepcks g := by
  rw [Client.repair, Client.repair]
  cases getPieceInSection g.retransSec 0 <;> rfl

/-- The machine goes around the first loop of `gather_file` as it is written. -/
theorem Client.run_gathering (c : Client) {inbox : List Msg} {rest : List (Option Msg)}
    (hwithin : numpcks ≤ numfilepcks)
    (hfirst : gatherFirst numfilepcks numpcks g (inbox.map some) = .ok (some (g', rest))) :
    ∃ front, front <+: inbox ∧
      run (Client.receive caller) front
          { c with stage := .gathering otherID numfilepcks numpcks g } =
        c.repair caller otherID numfilepcks g' := by
  induction inbox generalizing numpcks g with
  | nil =>
      rw [List.map_nil, gatherFirst, if_pos hwithin] at hfirst
      cases hfirst
  | cons pck inbox ih =>
      rw [List.map_cons, gatherFirst, if_pos hwithin] at hfirst
      obtain ⟨next, hpacket, hfirst⟩ := bind_eq_ok.mp hfirst
      by_cases hmore : numpcks + 1 ≤ numfilepcks
      · obtain ⟨front, hfront, hrun⟩ := ih hmore hfirst
        refine ⟨pck :: front, List.cons_prefix_cons.mpr ⟨rfl, hfront⟩, ?_⟩
        rw [← hrun, run_cons, Client.receive]
        simp only [hpacket, ok_bind, if_pos hmore]
        rfl
      · obtain rfl : next = g' := by
          unfold gatherFirst at hfirst
          split at hfirst <;> simp only [if_neg hmore] at hfirst <;> cases hfirst <;> rfl
        refine ⟨[pck], List.prefix_append [pck] inbox, ?_⟩
        rw [run_singleton, Client.receive]
        simp only [hpacket, ok_bind, if_neg hmore, Client.repair_stage]

theorem gatherAnswer_sent (pck : Msg) (g : Gather) (sent : List Msg) :
    gatherAnswer maxSize numfilepcks pck { g with sent } =
      (gatherAnswer maxSize numfilepcks pck g).map fun g => { g with sent } := by
  rw [gatherAnswer, gatherAnswer]
  cases verifyMsg pck with
  | error fault => rfl
  | ok valid =>
      cases valid with
      | false => rfl
      | true =>
          simp only [ok_bind, if_true]
          split
          next =>
            cases (g.file.fseek (segmentOffset (firstLowInSection g.retransSec)
              maxSize)).writePacket pck <;> rfl
          next => rfl

/-- A request goes behind what was sent before. -/
theorem request_append {draw msgID : Nat → UInt32} {base : List Msg}
    (hdraw : ∀ k, draw k = msgID (base.length + k)) (sent : List Msg) (selfID otherID : UInt64)
    (dataType : DataType) (segmentNum : UInt64) (content : Bytes) (length : UInt32) :
    request msgID (base ++ sent) selfID otherID dataType segmentNum content length =
      (request draw sent selfID otherID dataType segmentNum content length).map (base ++ ·) := by
  rw [request, request, List.length_append, ← hdraw]
  cases formMsg (draw sent.length) selfID otherID ChannelType.control.code dataType.code segmentNum
    content length with
  | error fault => rfl
  | ok send =>
      simp only [ok_bind]
      cases sendMsg send with
      | error fault => rfl
      | ok bytes =>
          rw [ok_bind, ok_bind]
          exact congrArg Except.ok (List.append_assoc base sent [send])

/-- The machine goes around the second loop of `gather_file` as it is written. -/
theorem Client.run_repairing (c : Client) {answer : Nat → UInt64 → Option Msg} {fuel : Nat}
    {draw : Nat → UInt32} {base : List Msg} (hdraw : ∀ k, draw k = caller.msgID (base.length + k))
    (hsent : c.sent = base ++ g.sent)
    (hagain : gatherAgain draw answer c.selfID otherID Client.maxSize numfilepcks fuel g =
      .ok (some g')) (stale : List Msg) :
    ∃ answers : List Msg, (∀ pck ∈ answers, ∃ k num, answer k num = some pck) ∧
      (c.repair caller otherID numfilepcks { g with sent := stale } >>=
          run (Client.receive caller) answers) =
        { c with sent := base ++ g'.sent, files := c.files ++ [g'.file] }.cease caller otherID := by
  induction fuel generalizing c g stale with
  | zero => cases hagain
  | succ fuel ih =>
      rw [gatherAgain] at hagain
      cases hpiece : getPieceInSection g.retransSec 0 with
      | none =>
          rw [hpiece] at hagain
          cases hagain
          refine ⟨[], List.forall_mem_nil _, ?_⟩
          rw [Client.repair]
          simp only [hpiece, ← hsent]
          exact bind_pure _
      | some piece =>
          rw [hpiece] at hagain
          obtain ⟨sent, hrequest, hagain⟩ := bind_eq_ok.mp hagain
          have hsend := request_append hdraw g.sent c.selfID otherID .rts
            (firstLowInSection g.retransSec) [] 0
          rw [hrequest, ← hsent] at hsend
          split at hagain
          next => cases hagain
          next pck hpck =>
            obtain ⟨next, hanswer, hagain⟩ := bind_eq_ok.mp hagain
            -- What was sent is not looked at.
            cases hkept : gatherAnswer Client.maxSize numfilepcks pck g with
            | error fault =>
                rw [gatherAnswer_sent, hkept] at hanswer
                cases hanswer
            | ok kept =>
                rw [gatherAnswer_sent, hkept] at hanswer
                cases hanswer
                obtain ⟨answers, hanswers, hrun⟩ := ih { c with
                  stage := .repairing otherID numfilepcks { g with sent := stale }
                  sent := base ++ sent } rfl hagain stale
                refine ⟨pck :: answers, List.forall_mem_cons.mpr ⟨⟨_, _, hpck⟩, hanswers⟩,
                  Eq.trans ?_ hrun⟩
                rw [Client.repair]
                simp only [hpiece, Client.send, List.length_nil]
                rw [show UInt32.ofNat 0 = 0 from rfl, hsend]
                show Client.receive caller pck { c with
                  stage := .repairing otherID numfilepcks { g with sent := stale }
                  sent := base ++ sent } >>= run (Client.receive caller) answers = _
                rw [Client.receive]
                simp only [gatherAnswer_sent, hkept]
                rfl

/-- The machine waits for its channel as `establish_channel` does, and readies it. -/
theorem Client.run_establishing (c : Client) {draw : Nat → UInt32} {base sent inbox : List Msg}
    {e : Established} (hdraw : ∀ k, draw k = caller.msgID (base.length + k))
    (hawait : awaitAnswer draw (caller.stale c.cycle) c.selfID 0 8000 caller.file
      (UInt32.ofNat caller.file.length) sent inbox = .ok e) :
    ∃ front, inbox = front ++ e.inbox ∧
      run (Client.receive caller) front
          { c with stage := .establishing, sent := base ++ sent } =
        ({ c with stage := .establishing, sent := base ++ e.sent }.sendFile caller
          e.otherID .syn >>= Client.gather caller e.otherID e.packets) := by
  induction inbox generalizing sent with
  | nil => cases hawait
  | cons recv inbox ih =>
      obtain ⟨valid, hvalid, hawait⟩ := bind_eq_ok.mp hawait
      cases valid with
      | true =>
          cases hawait
          refine ⟨[recv], rfl, ?_⟩
          rw [run_singleton, Client.receive]
          simp only [hvalid, ok_bind, if_true, Client.sendFile, Client.send]
          -- The cycle is the same behind the request.
          cases request caller.msgID (base ++ sent) c.selfID recv.head.sendID .syn Client.maxSize
            caller.file (UInt32.ofNat caller.file.length) <;> rfl
      | false =>
          obtain ⟨sent', hrequest, hawait⟩ := bind_eq_ok.mp hawait
          have hsend := request_append hdraw sent c.selfID 0 .rts Client.maxSize caller.file
            (UInt32.ofNat caller.file.length)
          rw [show Client.maxSize = (8000 : UInt32).toUInt64 from rfl, hrequest] at hsend
          obtain ⟨front, rfl, hrun⟩ := ih hawait
          refine ⟨recv :: front, rfl, Eq.trans ?_ hrun⟩
          rw [run_cons, Client.receive]
          simp only [hvalid, ok_bind, Bool.false_eq_true, if_false, Client.sendFile, Client.send]
          rw [show Client.maxSize = (8000 : UInt32).toUInt64 from rfl, hsend]
          rfl

/-- What the machine makes of the packets and the answers that `gather_file` takes in is what
`gather_file` makes of them, and it sends the same. -/
theorem Client.run_gatherFile (c : Client) {inbox : List Msg} {answer : Nat → UInt64 → Option Msg}
    {fuel : Nat} (hgather : gatherFile (fun k => caller.msgID (c.sent.length + k))
      (inbox.map some) answer c.selfID otherID Client.maxSize numfilepcks fuel = .ok (some g)) :
    ∃ front answers : List Msg, front <+: inbox ∧
      (∀ pck ∈ answers, ∃ k num, answer k num = some pck) ∧
      (c.gather caller otherID numfilepcks >>= run (Client.receive caller) (front ++ answers)) =
        { c with
          sent := c.sent ++ g.sent
          files := c.files ++ [g.file] }.cease caller otherID := by
  obtain ⟨passed, hpass, hgather⟩ := bind_eq_ok.mp hgather
  rw [gatherPass] at hpass
  split at hpass
  next =>
    cases hpass
    cases hgather
  next hnonzero =>
    cases passed with
    | none => cases hgather
    | some passed =>
        obtain ⟨g₁, rest⟩ := passed
        have hstart : g₁.sent = [] := gatherFirst_sent hpass
        have hwithin : 0 ≤ numfilepcks := UInt64.zero_le
        obtain ⟨front, hfront, hfirst⟩ := c.run_gathering hwithin hpass
        obtain ⟨answers, hanswers, hagain⟩ := c.run_repairing (fun _ => rfl)
          (by rw [hstart, List.append_nil]) hgather g₁.sent
        refine ⟨front, answers, hfront, hanswers, ?_⟩
        rw [Client.gather, if_neg hnonzero, ← hagain, ← hfirst]
        exact List.foldlM_append

end Loops

end Hipft
