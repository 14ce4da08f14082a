import Mathlib.Data.List.Infix
import Mathlib.Data.Int.Notation

/-! CSubThread::Entry, the thread of one forwarded connection. It reads from the local client and writes to the
channel, then reads from the channel and writes to the client, until something ends the connection. A point of the
code is a call it is about to make; what the call returns is an answer. -/
namespace PgAdmin.CSubThread

abbrev Bytes := List UInt8

def LIBSSH2_ERROR_EAGAIN : ℤ := -37

def bufferSize : ℕ := 20480

inductive Shutdown where
  | noChannel
  | selectFailed
  | recvFailed
  | clientDisconnected
  | channelWriteFailed (i : ℤ)
  | channelReadFailed (len : ℤ)
  | sendFailed
  | serverDisconnected
  deriving DecidableEq, Repr

inductive Point where
  | connect
  | select
  | recv
  | channelWrite (buf : Bytes) (wr : ℕ)
  | channelRead
  | send (buf : Bytes) (wr : ℕ)
  | channelEof
  | shutdown (why : Shutdown)
  deriving DecidableEq, Repr

inductive Answer where
  | channel (rc : ℤ)
  | selected (rc : ℤ)
  | received (buf : Option Bytes)
  | channelWritten (i : ℤ)
  | channelReceived (buf : Except ℤ Bytes)
  | sent (i : ℤ)
  | eof (reached : Bool)

structure Relay where
  point : Point
  fromClient : Bytes
  toChannel : Bytes
  fromChannel : Bytes
  toClient : Bytes
  deriving DecidableEq, Repr

def start : Relay := ⟨.connect, [], [], [], []⟩

namespace Relay
variable (s : Relay)

def connected (rc : ℤ) : Relay :=
  if rc = 0 then { s with point := .select }
  else if rc = LIBSSH2_ERROR_EAGAIN then { s with point := .connect }
  else { s with point := .shutdown .noChannel }

def selected (rc : ℤ) : Relay :=
  if rc = -1 then { s with point := .shutdown .selectFailed }
  else if rc = 0 then { s with point := .channelRead }
  else { s with point := .recv }

def received : Option Bytes → Relay
  | none => { s with point := .shutdown .recvFailed }
  | some buf =>
    if buf = [] then { s with point := .shutdown .clientDisconnected }
    else { s with point := .channelWrite buf 0, fromClient := s.fromClient ++ buf }

def channelWritten (buf : Bytes) (wr : ℕ) (i : ℤ) : Relay :=
  if i < 0 then { s with point := .shutdown (.channelWriteFailed i) }
  else { s with
    toChannel := s.toChannel ++ buf.take i.toNat
    point := if i > 0 ∧ wr + i.toNat < buf.length then .channelWrite buf (wr + i.toNat) else .channelRead }

def channelReceived : Except ℤ Bytes → Relay
  | .error len =>
    if len = LIBSSH2_ERROR_EAGAIN then { s with point := .select }
    else { s with point := .shutdown (.channelReadFailed len) }
  | .ok buf => { s with
    fromChannel := s.fromChannel ++ buf
    point := if 0 < buf.length then .send buf 0 else .channelEof }

def sent (buf : Bytes) (wr : ℕ) (i : ℤ) : Relay :=
  if i ≤ 0 then { s with point := .shutdown .sendFailed }
  else { s with
    toClient := s.toClient ++ (buf.drop wr).take i.toNat
    point := if wr + i.toNat < buf.length then .send buf (wr + i.toNat) else .channelEof }

def eof (reached : Bool) : Relay :=
  { s with point := if reached then .shutdown .serverDisconnected else .channelRead }

def step (a : Answer) : Option Relay :=
  match s.point, a with
  | .connect, .channel rc => some (s.connected rc)
  | .select, .selected rc => some (s.selected rc)
  | .recv, .received buf => some (s.received buf)
  | .channelWrite buf wr, .channelWritten i => some (s.channelWritten buf wr i)
  | .channelRead, .channelReceived buf => some (s.channelReceived buf)
  | .send buf wr, .sent i => some (s.sent buf wr i)
  | .channelEof, .eof reached => some (s.eof reached)
  | _, _ => none

end Relay

/- What the calls may answer: a read fits the buffer, a write that does not fail accepts a positive number of the
offered bytes. -/
def Lawful : Point → Answer → Prop
  | .recv, .received (some buf) => buf.length ≤ bufferSize
  | .channelWrite buf _, .channelWritten i => i ≠ 0 ∧ i ≤ buf.length
  | .channelRead, .channelReceived (.error len) => len < 0
  | .channelRead, .channelReceived (.ok buf) => buf.length ≤ bufferSize
  | .send buf wr, .sent i => i ≤ buf.length - wr
  | _, _ => True

/- The states of runs whose steps are all lawful and meet a condition. -/
inductive Reached (Condition : Point → Answer → Prop) : Relay → Prop where
  | start : Reached Condition start
  | step {s s' : Relay} {a : Answer} (reached : Reached Condition s) (lawful : Lawful s.point a)
      (condition : Condition s.point a) (next : s.step a = some s') : Reached Condition s'

def Point.unwritten : Point → Bytes
  | .channelWrite buf wr => buf.drop wr
  | _ => []

def Point.unsent : Point → Bytes
  | .send buf wr => buf.drop wr
  | _ => []

/- The bytes received from the client are those forwarded to the channel and those of the buffer that are still to
be written; a write that failed for a real error leaves some of them unforwarded. -/
structure ToChannel (s : Relay) : Prop where
  inOrder : s.toChannel <+: s.fromClient
  complete : (∀ i, s.point ≠ .shutdown (.channelWriteFailed i)) →
    s.toChannel ++ s.point.unwritten = s.fromClient
  blockedGoesOn : s.point ≠ .shutdown (.channelWriteFailed LIBSSH2_ERROR_EAGAIN)

structure ToClient (s : Relay) : Prop where
  inOrder : s.toClient <+: s.fromChannel
  complete : s.point ≠ .shutdown .sendFailed → s.toClient ++ s.point.unsent = s.fromChannel

structure Transparent (s : Relay) : Prop where
  toChannel : ToChannel s
  toClient : ToClient s

/- No buffer is offered to the channel a second time, and no write to the channel would block. -/
def WritesWhole : Point → Answer → Prop
  | .channelWrite _ wr, .channelWritten i => wr = 0 ∧ i ≠ LIBSSH2_ERROR_EAGAIN
  | _, _ => True

section Steps
variable {s : Relay}

theorem ToChannel.idle {s' : Relay} (good : ToChannel s) (from_ : s'.fromClient = s.fromClient)
    (to_ : s'.toChannel = s.toChannel) (here : s.point.unwritten = []) (next : s'.point.unwritten = [])
    (running : ∀ i, s.point ≠ .shutdown (.channelWriteFailed i))
    (ended : ∀ i, s'.point ≠ .shutdown (.channelWriteFailed i)) : ToChannel s' := by
  refine ⟨by rw [from_, to_]; exact good.inOrder, fun _ => ?_, ended _⟩
  rw [from_, to_, next, ← here]
  exact good.complete running

theorem ToClient.idle {s' : Relay} (good : ToClient s) (from_ : s'.fromChannel = s.fromChannel)
    (to_ : s'.toClient = s.toClient) (here : s.point.unsent = []) (next : s'.point.unsent = [])
    (running : s.point ≠ .shutdown .sendFailed) : ToClient s' := by
  refine ⟨by rw [from_, to_]; exact good.inOrder, fun _ => ?_⟩
  rw [from_, to_, next, ← here]
  exact good.complete running

theorem receivedToChannel (good : ToChannel s) (here : s.point = .recv) (buf : Option Bytes) :
    ToChannel (s.received buf) := by
  have all : s.toChannel = s.fromClient := by
    have complete := good.complete (by simp [here])
    rw [here] at complete
    exact (List.append_nil _).symm.trans complete
  cases buf with
  | none => exact good.idle rfl rfl (by rw [here]; rfl) rfl (by simp [here]) (by simp [Relay.received])
  | some buf =>
    rw [Relay.received]
    split_ifs
    · exact good.idle rfl rfl (by rw [here]; rfl) rfl (by simp [here]) (by simp)
    · exact ⟨⟨buf, congrArg (· ++ buf) all⟩, fun _ => congrArg (· ++ buf) all, by simp⟩

theorem writtenToChannel (good : ToChannel s) {buf : Bytes} {i : ℤ} (here : s.point = .channelWrite buf 0)
    (goesOn : i ≠ LIBSSH2_ERROR_EAGAIN) (accepts : i ≠ 0) : ToChannel (s.channelWritten buf 0 i) := by
  have all : s.toChannel ++ buf = s.fromClient := by
    have complete := good.complete (by simp [here])
    rwa [here] at complete
  rw [Relay.channelWritten]
  split
  case isTrue negative => exact ⟨good.inOrder, fun real => absurd rfl (real i), by simpa using goesOn⟩
  case isFalse positive =>
    have split : s.toChannel ++ buf.take i.toNat ++ buf.drop i.toNat = s.fromClient := by
      rw [List.append_assoc, List.take_append_drop, all]
    refine ⟨⟨_, split⟩, fun _ => ?_, ?_⟩
    · rw [← split, Nat.zero_add]
      split_ifs with again
      · rfl
      · have past : buf.length ≤ i.toNat := by omega
        rw [List.drop_eq_nil_of_le past]
        rfl
    · split_ifs <;> simp

theorem receivedToClient (good : ToClient s) (here : s.point = .channelRead) (buf : Except ℤ Bytes) :
    ToClient (s.channelReceived buf) := by
  have all : s.toClient = s.fromChannel := by
    have complete := good.complete (by simp [here])
    rw [here] at complete
    exact (List.append_nil _).symm.trans complete
  cases buf with
  | error len =>
    rw [Relay.channelReceived]
    split_ifs
    all_goals exact good.idle rfl rfl (by rw [here]; rfl) rfl (by simp [here])
  | ok buf =>
    refine ⟨⟨buf, congrArg (· ++ buf) all⟩, fun _ => ?_⟩
    rw [Relay.channelReceived, all]
    split_ifs with some_
    · rfl
    · rw [List.eq_nil_of_length_eq_zero (Nat.eq_zero_of_not_pos some_)]
      rfl

theorem sentToClient (good : ToClient s) {buf : Bytes} {wr : ℕ} {i : ℤ} (here : s.point = .send buf wr) :
    ToClient (s.sent buf wr i) := by
  have all : s.toClient ++ buf.drop wr = s.fromChannel := by
    have complete := good.complete (by simp [here])
    rwa [here] at complete
  rw [Relay.sent]
  split
  case isTrue => exact ⟨good.inOrder, fun real => absurd rfl real⟩
  case isFalse =>
    have split : s.toClient ++ (buf.drop wr).take i.toNat ++ buf.drop (wr + i.toNat) = s.fromChannel := by
      rw [List.append_assoc, ← List.drop_drop, List.take_append_drop, all]
    refine ⟨⟨_, split⟩, fun _ => ?_⟩
    rw [← split]
    split_ifs with again
    · rfl
    · rw [List.drop_eq_nil_of_le (not_lt.mp again)]
      rfl

structure Quiet (s s' : Relay) : Prop where
  point : ∃ p : Point, s' = { s with point := p } ∧ p.unwritten = [] ∧ p.unsent = [] ∧
    ∀ i, p ≠ .shutdown (.channelWriteFailed i)

theorem connectedQuiet (rc : ℤ) : Quiet s (s.connected rc) := by
  rw [Relay.connected]
  split_ifs
  all_goals exact ⟨_, rfl, rfl, rfl, by simp⟩

theorem selectedQuiet (rc : ℤ) : Quiet s (s.selected rc) := by
  rw [Relay.selected]
  split_ifs
  all_goals exact ⟨_, rfl, rfl, rfl, by simp⟩

theorem eofQuiet (reached : Bool) : Quiet s (s.eof reached) := by
  cases reached
  all_goals exact ⟨_, rfl, rfl, rfl, by simp⟩

theorem stepToChannel {s' : Relay} {a : Answer} (good : ToChannel s) (lawful : Lawful s.point a)
    (whole : WritesWhole s.point a) (next : s.step a = some s') : ToChannel s' := by
  have quiet {s'} (q : Quiet s s') (here : s.point.unwritten = [])
      (running : ∀ i, s.point ≠ .shutdown (.channelWriteFailed i)) : ToChannel s' := by
    obtain ⟨p, rfl, empty, -, fine⟩ := q
    exact good.idle rfl rfl here empty running fine
  unfold Relay.step at next
  split at next
  all_goals cases next
  case h_1 rc here => exact quiet (connectedQuiet rc) (by rw [here]; rfl) (by simp [here])
  case h_2 rc here => exact quiet (selectedQuiet rc) (by rw [here]; rfl) (by simp [here])
  case h_3 buf here => exact receivedToChannel good here buf
  case h_4 buf wr i here =>
    rw [here] at lawful whole
    obtain ⟨rfl, goesOn⟩ := whole
    exact writtenToChannel good here goesOn lawful.1
  case h_5 buf here =>
    cases buf with
    | error len =>
      rw [Relay.channelReceived]
      split_ifs
      all_goals exact good.idle rfl rfl (by rw [here]; rfl) rfl (by simp [here]) (by simp)
    | ok buf =>
      rw [Relay.channelReceived]
      split_ifs
      all_goals exact good.idle rfl rfl (by rw [here]; rfl) rfl (by simp [here]) (by simp)
  case h_6 buf wr i here =>
    rw [Relay.sent]
    split_ifs
    all_goals exact good.idle rfl rfl (by rw [here]; rfl) rfl (by simp [here]) (by simp)
  case h_7 reached here => exact quiet (eofQuiet reached) (by rw [here]; rfl) (by simp [here])

theorem stepToClient {s' : Relay} {a : Answer} (good : ToClient s) (next : s.step a = some s') :
    ToClient s' := by
  have quiet {s'} (q : Quiet s s') (here : s.point.unsent = []) (running : s.point ≠ .shutdown .sendFailed) :
      ToClient s' := by
    obtain ⟨p, rfl, -, empty, -⟩ := q
    exact good.idle rfl rfl here empty running
  unfold Relay.step at next
  split at next
  all_goals cases next
  case h_1 rc here => exact quiet (connectedQuiet rc) (by rw [here]; rfl) (by simp [here])
  case h_2 rc here => exact quiet (selectedQuiet rc) (by rw [here]; rfl) (by simp [here])
  case h_3 buf here =>
    cases buf with
    | none => exact good.idle rfl rfl (by rw [here]; rfl) rfl (by simp [here])
    | some buf =>
      rw [Relay.received]
      split_ifs
      all_goals exact good.idle rfl rfl (by rw [here]; rfl) rfl (by simp [here])
  case h_4 buf wr i here =>
    rw [Relay.channelWritten]
    split_ifs
    all_goals exact good.idle rfl rfl (by rw [here]; rfl) rfl (by simp [here])
  case h_5 buf here => exact receivedToClient good here buf
  case h_6 buf wr i here => exact sentToClient good here
  case h_7 reached here => exact quiet (eofQuiet reached) (by rw [here]; rfl) (by simp [here])

end Steps

theorem startTransparent : Transparent start :=
  ⟨⟨List.nil_prefix, fun _ => rfl, by simp [start]⟩, ⟨List.nil_prefix, fun _ => rfl⟩⟩

theorem clientServed {Condition : Point → Answer → Prop} {s : Relay} (reached : Reached Condition s) :
    ToClient s := by
  induction reached with
  | start => exact startTransparent.toClient
  | step reached lawful condition next ih => exact stepToClient ih next

theorem relayed (s : Relay) (reached : Reached WritesWhole s) : Transparent s := by
  refine ⟨?_, clientServed reached⟩
  induction reached with
  | start => exact startTransparent.toChannel
  | step reached lawful condition next ih => exact stepToChannel ih lawful condition next

theorem twoBytesRead (Condition : Point → Answer → Prop)
    (free : ∀ p a, (∀ buf wr, p ≠ .channelWrite buf wr) → Condition p a) :
    Reached Condition ⟨.channelWrite [1, 2] 0, [1, 2], [], [], []⟩ := by
  have connected : Reached Condition ⟨.select, [], [], [], []⟩ :=
    .step .start (a := .channel 0) trivial (free _ _ (by simp [start])) rfl
  have selected : Reached Condition ⟨.recv, [], [], [], []⟩ :=
    .step connected (a := .selected 1) trivial (free _ _ (by simp)) rfl
  exact .step selected (a := .received (some [1, 2])) (by simp [Lawful, bufferSize]) (free _ _ (by simp)) rfl

theorem wholeWriteRelayed : Transparent ⟨.channelRead, [1, 2], [1, 2], [], []⟩ :=
  relayed _ (.step (twoBytesRead _ fun p a other => by
      unfold WritesWhole
      split
      · exact absurd rfl (other _ _)
      · trivial)
    (a := .channelWritten 2) (by simp [Lawful]) (by simp [WritesWhole, LIBSSH2_ERROR_EAGAIN]) rfl)

/- One byte of two is accepted, then one again: the second call offers the first byte a second time. -/
theorem shortWriteRepeats : ¬ ∀ s, Reached (fun _ _ => True) s → Transparent s := by
  intro all
  have first := twoBytesRead (fun _ _ => True) fun _ _ _ => trivial
  have second : Reached (fun _ _ => True) ⟨.channelWrite [1, 2] 1, [1, 2], [1], [], []⟩ :=
    .step first (a := .channelWritten 1) (by simp [Lawful]) trivial rfl
  have third : Reached (fun _ _ => True) ⟨.channelRead, [1, 2], [1, 1], [], []⟩ :=
    .step second (a := .channelWritten 1) (by simp [Lawful]) trivial rfl
  have sent := (all _ third).toChannel.complete (by simp)
  revert sent
  decide

end PgAdmin.CSubThread
