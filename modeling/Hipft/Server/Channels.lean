import Hipft.Client.Download
import Hipft.Server.TableRuns

/-! # Channels in the runs of the server

What happens to a channel in a run of the server is a run of that channel: its record is
made for a message, and from then on the main loop and the thread take turns at it. What
other connections do does not reach it.
-/

namespace Hipft

open CMemory Transitions

/-! ## Invariants of channels -/

/-- What a connected client can make happen to a channel. -/
def ThreadEvent.FromClient : ThreadEvent → Prop
  | .ready => True
  | .kill => False
  | .receive m => verifyMsg m = .ok true ∧ m.request = .again
  | .step _ => True

/-- A property of the channels of a socket that holds of a new channel and that nothing
ends that a client makes happen. -/
structure ChannelInvariant (handles : List FileHandle) (P : Nat → Worker → Prop) : Prop where
  start : ∀ sock selfID otherID maxSize, ∀ fhandle ∈ handles,
    P sock (Worker.start sock selfID otherID maxSize fhandle)
  event : ∀ sock w w' e, P sock w → e.FromClient → Worker.event e w = .ok w' → P sock w'

/-- The property holds of every channel. -/
def Table.All (P : Nat → Worker → Prop) (t : Table) : Prop :=
  ∀ entry ∈ t, ∀ w ∈ entry.chans, P entry.sock w

theorem mem_of_fileHandleForFile {file : Bytes} {fileLength : Nat} {handles : List FileHandle}
    {fhandle : FileHandle}
    (hfound : fileHandleForFile file fileLength handles = .ok (some fhandle)) :
    fhandle ∈ handles := by
  induction handles with
  | nil => cases hfound
  | cons first handles ih =>
      obtain ⟨same, -, hfound⟩ := bind_eq_ok.mp hfound
      cases same with
      | false => exact List.mem_cons_of_mem _ (ih hfound)
      | true =>
          cases hfound
          exact List.mem_cons_self

theorem forall_mem_modify {α : Type} {p : α → Prop} {l : List α} (hall : ∀ a ∈ l, p a) {i : Nat}
    {f : α → α} (hf : ∀ a, p a → p (f a)) : ∀ a ∈ l.modify i f, p a := by
  intro a ha
  obtain ⟨j, hj⟩ := List.mem_iff_getElem?.mp ha
  rw [List.getElem?_modify] at hj
  obtain ⟨b, hb, rfl⟩ := Option.map_eq_some_iff.mp hj
  split
  next => exact hf b (hall b (List.mem_of_getElem? hb))
  next => exact hall b (List.mem_of_getElem? hb)

section Invariant

variable {handles : List FileHandle} {P : Nat → Worker → Prop}

theorem ChannelInvariant.stepped (hinv : ChannelInvariant handles P) {sock : Nat} {w : Worker}
    (hw : P sock w) (msgID : UInt32) : P sock (w.stepped msgID) := by
  rw [Worker.stepped]
  split
  next w' hstep => exact hinv.event sock w w' (.step msgID) hw trivial hstep
  next => exact hw

/-- What a request does keeps the property for each of the channels. -/
theorem ChannelInvariant.handle (hinv : ChannelInvariant handles P) {t : Table} (hall : t.All P)
    {m : Msg} (hverified : verifyMsg m = .ok true) (draw : Draw) (i : Nat) :
    (t.handle handles draw i m).All P := by
  have hwrite : ∀ f : Worker → Worker, (∀ sock w, P sock w → P sock (f w)) →
      Table.All P (t.modify i (TableEntry.write m f)) := by
    intro f hf
    apply forall_mem_modify hall
    intro entry hentry
    rw [TableEntry.write]
    split
    next => exact forall_mem_modify hentry (hf entry.sock)
    next => exact hentry
  rw [Table.handle]
  cases hrequest : m.request with
  | close => exact fun entry hentry => hall entry (List.mem_of_mem_eraseIdx hentry)
  | ask =>
      simp only
      split
      next fhandle hfile =>
        split
        next =>
          apply forall_mem_modify hall
          intro entry hentry
          rw [TableEntry.ask]
          split
          next => exact hentry
          next =>
            refine List.forall_mem_append.mpr ⟨hentry, List.forall_mem_singleton.mpr ?_⟩
            exact hinv.start _ _ _ _ fhandle (mem_of_fileHandleForFile hfile)
        next => exact hall
      next => exact hall
  | ready => exact hwrite _ fun sock w hw => hinv.event sock w _ .ready hw trivial rfl
  | again =>
      exact hwrite _ fun sock w hw =>
        hinv.event sock w _ (.receive m) hw ⟨hverified, hrequest⟩ rfl
  | finish =>
      apply forall_mem_modify hall
      intro entry hentry
      rw [TableEntry.finish]
      split
      next => exact fun w hw => hentry w (List.mem_of_mem_eraseIdx hw)
      next => exact hentry
  | unknown => exact hall

theorem ChannelInvariant.act (hinv : ChannelInvariant handles P) {t : Table} (hall : t.All P)
    (event : ServerEvent) : (Table.act handles event t).All P := by
  cases event with
  | accept sock =>
      exact List.forall_mem_append.mpr
        ⟨hall, List.forall_mem_singleton.mpr (List.forall_mem_nil _)⟩
  | receive i m draw =>
      cases m with
      | none => exact fun entry hentry => hall entry (List.mem_of_mem_eraseIdx hentry)
      | some m =>
          rw [Table.act]
          split
          next hverified => exact hinv.handle hall hverified draw i
          next => exact hall
  | step i j msgID =>
      apply forall_mem_modify hall
      intro entry hentry
      exact forall_mem_modify hentry fun w hw => hinv.stepped hw msgID

/-- In every run the property holds of every channel that the server has. -/
theorem ChannelInvariant.run (hinv : ChannelInvariant handles P) {spare : Nat → Nat}
    {events : List ServerEvent} {s : Server}
    (hrun : run (Server.event spare handles) events Server.start = .ok s) : s.table.All P := by
  rw [table_of_run hrun]
  clear hrun
  induction events using List.reverseRecOn with
  | nil => exact List.forall_mem_nil _
  | append_singleton events e ih =>
      rw [List.foldl_append]
      exact hinv.act ih e

end Invariant

/-! ## Channels as runs of their own -/

/-- What has become of a channel that was made for a file. -/
def Worker.Since (handles : List FileHandle) (sock : Nat) (w : Worker) : Prop :=
  ∃ selfID otherID maxSize fhandle events, fhandle ∈ handles ∧
    (∀ e ∈ events, ThreadEvent.FromClient e) ∧
    run Worker.event events (Worker.start sock selfID otherID maxSize fhandle) = .ok w

theorem since_invariant (handles : List FileHandle) :
    ChannelInvariant handles (Worker.Since handles) where
  start sock selfID otherID maxSize fhandle hmem :=
    ⟨selfID, otherID, maxSize, fhandle, [], hmem, List.forall_mem_nil _, rfl⟩
  event sock w w' e hsince hclient hevent := by
    obtain ⟨selfID, otherID, maxSize, fhandle, events, hmem, hclients, hrun⟩ := hsince
    refine ⟨selfID, otherID, maxSize, fhandle, events ++ [e], hmem, ?_, ?_⟩
    · exact List.forall_mem_append.mpr ⟨hclients, List.forall_mem_singleton.mpr hclient⟩
    · rw [run_append hrun, run_cons_of_ok hevent]
      rfl

theorem run_alike {events : List ThreadEvent} {w w' : Worker}
    (hrun : run Worker.event events w = .ok w') : Alike w w' := by
  have hkept : Alike w w' := by
    refine run_invariant (fun e v v' hv hevent => ?_) (alike_of_chan_eq rfl) hrun
    have hstep := Worker.event_alike hevent
    exact ⟨hstep.otherID.trans hv.otherID, hstep.selfID.trans hv.selfID,
      hstep.maxSize.trans hv.maxSize, hstep.handle.trans hv.handle⟩
  exact hkept

/-- What the server has in its table can be run by its thread. -/
theorem Server.Sound.live_table {s : Server} {cs : List Connection} (hsound : s.Sound cs)
    {entry : TableEntry} (hentry : entry ∈ s.table) {w : Worker} (hw : w ∈ entry.chans) :
    Live w.chan := by
  rw [hsound.toHas.table_eq] at hentry
  obtain ⟨conn, hconn, rfl⟩ := List.mem_map.mp hentry
  obtain ⟨ws, hws⟩ := hsound.sound conn hconn
  rw [hws.entry_eq] at hw
  exact hws.live w hw

section Runs

variable {spare : Nat → Nat} {handles : List FileHandle} {events : List ServerEvent} {s : Server}
  {entry : TableEntry} {w : Worker}

/-- A channel that has sent its file: the client that takes in what was sent asks for
nothing, and it has the file exactly if no segment is read from a place that was cut to 32
bits and has other bytes. What came in meanwhile, and from whom, makes no difference. -/
theorem run_download_iff (hrun : run (Server.event spare handles) events Server.start = .ok s)
    (hentry : entry ∈ s.table) (hw : w ∈ entry.chans) (hfinished : w.thread.finishedFt = true)
    (hsmall : w.chan.maxSize.toNat < 65536) (draw : Nat → UInt32)
    (answer : Nat → UInt64 → Option Msg) (rest : List (Option Msg)) (fuel : Nat) :
    ∃ fhandle ∈ handles, w.chan.handle = some fhandle ∧ (fhandle.content ≠ [] →
      ∃ g, gatherFile draw (w.thread.sent.map (some ∘ Sent.msg) ++ rest) answer w.chan.otherID
          w.chan.selfID w.chan.maxSize
          (UInt64.ofNat (fhandle.segments w.chan.maxSize.toNat)) (fuel + 1) = .ok (some g) ∧
        g.sent = [] ∧
        (g.file.content = fhandle.content ↔
          RepeatsFarSegments fhandle w.chan.maxSize.toNat)) := by
  obtain ⟨selfID, otherID, maxSize, fhandle, history, hmem, -, hhistory⟩ :=
    (since_invariant handles).run hrun entry hentry w hw
  obtain ⟨cs, hsound⟩ := run_sound events hrun
  have hsize := (hsound.live_table hentry hw).maxSize
  have halike := run_alike hhistory
  refine ⟨fhandle, hmem, halike.handle, fun hsome => ?_⟩
  rw [halike.maxSize] at hsize hsmall
  rw [halike.otherID, halike.selfID, halike.maxSize]
  exact gatherFile_finished hsize hsmall hsome hhistory hfinished draw answer rest fuel

end Runs

/-- The client with the channel 301 readies it. -/
def readyMsg : Msg where
  head := formHeader 7 100 301 ChannelType.control.code DataType.syn.code 0 1
  body := (askMsg 100).body
  trail := formHeader 7 100 301 ChannelType.control.code DataType.syn.code 0 1

/-- The client asks for a channel and readies it, and the thread sends the file. -/
def downloadEvents : List ServerEvent :=
  askEvents [100] ++ .receive 0 (some readyMsg) ⟨9, 1⟩ :: List.replicate 12 (.step 0 0 7)

theorem run_downloadEvents :
    ∃ s, run (Server.event oneMore [threeBytes]) downloadEvents Server.start = .ok s ∧
      ∃ entry ∈ s.table, ∃ w ∈ entry.chans,
        w.thread.finishedFt = true ∧ w.chan.maxSize.toNat < 65536 := by decide +kernel

theorem run_download_iff_three :
    ∃ s, ∃ entry ∈ s.table, ∃ w ∈ entry.chans,
      run (Server.event oneMore [threeBytes]) downloadEvents Server.start = .ok s ∧
      ∃ fhandle ∈ [threeBytes], w.chan.handle = some fhandle ∧ (fhandle.content ≠ [] →
        ∃ g, gatherFile (fun _ => 9) (w.thread.sent.map (some ∘ Sent.msg) ++ []) (fun _ _ => none)
            w.chan.otherID w.chan.selfID w.chan.maxSize
            (UInt64.ofNat (fhandle.segments w.chan.maxSize.toNat)) (0 + 1) = .ok (some g) ∧
          g.sent = [] ∧
          (g.file.content = fhandle.content ↔
            RepeatsFarSegments fhandle w.chan.maxSize.toNat)) := by
  obtain ⟨s, hrun, entry, hentry, w, hw, hfinished, hsmall⟩ := run_downloadEvents
  exact ⟨s, entry, hentry, w, hw, hrun,
    run_download_iff hrun hentry hw hfinished hsmall (fun _ => 9) (fun _ _ => none) [] 0⟩

/-! ## Connections of their own -/

/-- The event is not of the connection with this socket, and gives the socket to no other. -/
def ServerEvent.Spares (sock : Nat) : ServerEvent → Table → Prop
  | .accept other, _ => other ≠ sock
  | .receive i _ _, t => ∀ entry, t[i]? = some entry → entry.sock ≠ sock
  | .step i _ _, t => ∀ entry, t[i]? = some entry → entry.sock ≠ sock

/-- The connections with this socket. -/
def Table.of (sock : Nat) (t : Table) : Table := t.filter fun entry => entry.sock = sock

section Isolation

variable {sock i : Nat} {t : Table}

theorem filter_eraseIdx {α : Type} {p : α → Bool} {l : List α} {i : Nat}
    (hi : ∀ a, l[i]? = some a → p a = false) : (l.eraseIdx i).filter p = l.filter p := by
  induction l generalizing i with
  | nil => rfl
  | cons a l ih =>
      cases i with
      | zero =>
          rw [List.eraseIdx_cons_zero, List.filter_cons_of_neg]
          rw [hi a rfl]
          exact Bool.false_ne_true
      | succ i =>
          rw [List.eraseIdx_cons_succ, List.filter_cons, List.filter_cons, ih hi]

theorem filter_modify {α : Type} {p : α → Bool} {l : List α} {i : Nat} {f : α → α}
    (hi : ∀ a, l[i]? = some a → p a = false) (hf : ∀ a, p (f a) = p a) :
    (l.modify i f).filter p = l.filter p := by
  induction l generalizing i with
  | nil => rw [List.modify_nil]
  | cons a l ih =>
      cases i with
      | zero =>
          have ha := hi a rfl
          simp [hf, ha]
      | succ i =>
          rw [List.modify_succ_cons, List.filter_cons, List.filter_cons, ih hi]

theorem of_modify (hi : ∀ entry, t[i]? = some entry → entry.sock ≠ sock)
    {f : TableEntry → TableEntry} (hf : ∀ entry, (f entry).sock = entry.sock) :
    Table.of sock (t.modify i f) = Table.of sock t := by
  apply filter_modify
  · intro entry hentry
    exact decide_eq_false (hi entry hentry)
  · intro entry
    rw [hf]

theorem of_eraseIdx (hi : ∀ entry, t[i]? = some entry → entry.sock ≠ sock) :
    Table.of sock (t.eraseIdx i) = Table.of sock t := by
  apply filter_eraseIdx
  intro entry hentry
  exact decide_eq_false (hi entry hentry)

theorem of_handle (handles : List FileHandle) (draw : Draw) (m : Msg)
    (hi : ∀ entry, t[i]? = some entry → entry.sock ≠ sock) :
    Table.of sock (t.handle handles draw i m) = Table.of sock t := by
  rw [Table.handle]
  cases m.request with
  | close => exact of_eraseIdx hi
  | ask =>
      simp only
      split
      next =>
        split
        next => exact of_modify hi (TableEntry.ask_sock draw _ m)
        next => rfl
      next => rfl
  | ready => exact of_modify hi (TableEntry.write_sock m _)
  | again => exact of_modify hi (TableEntry.write_sock m _)
  | finish => exact of_modify hi (TableEntry.finish_sock m)
  | unknown => rfl

/-- What is not of a connection leaves it as it is. -/
theorem of_act (handles : List FileHandle) {e : ServerEvent} (hspares : e.Spares sock t) :
    Table.of sock (Table.act handles e t) = Table.of sock t := by
  cases e with
  | accept other =>
      rw [Table.of, Table.act, List.filter_append]
      simp [Table.of, show other ≠ sock from hspares]
  | receive i m draw =>
      cases m with
      | none => exact of_eraseIdx hspares
      | some m =>
          rw [Table.act]
          split
          next => exact of_handle handles draw m hspares
          next => rfl
  | step i j msgID => exact of_modify hspares fun _ => rfl

end Isolation

end Hipft
