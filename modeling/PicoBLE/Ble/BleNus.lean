import Mathlib.Algebra.Ring.Nat
import PicoBLE.Lib.Fifo
import PicoBLE.Lib.LTS

/-!
# The transmit queue of `ble/ble_nus.c`

`ble_nus_send` puts bytes into a queue, and each `ATT_EVENT_CAN_SEND_NOW` takes one
notification from it. Nothing polls the queue: output goes on only while an event
is outstanding. So whoever makes it possible to send has to ask for one, and
an event that leaves something in the queue has to ask for the next.

A function returns what it has done with BTStack and its caller beside its new
state. What a callback of the application sends is given to it.
-/

namespace PicoBLE.Ble

/-! ## The functions -/

/-- `TX_BUF_SIZE`. -/
def txBufSize : Nat := 1024

/-- `HCI_CON_HANDLE_INVALID`. -/
def hciConHandleInvalid : UInt16 := 0xFFFF

/-- `GATT_CLIENT_CHARACTERISTICS_CONFIGURATION_NOTIFICATION`. -/
def cccdNotification : UInt16 := 1

/-- The variables of `ble_nus.c`, less the callbacks. -/
structure Nus where
  conHandle : UInt16
  notificationsEnabled : Bool
  tx : Fifo UInt8 txBufSize
deriving DecidableEq

def Nus.zero : Nus := ⟨hciConHandleInvalid, false, .empty⟩

/-- What a function does besides. -/
inductive Effect where
  /-- `ble_nus_send` returns, and has accepted these bytes. -/
  | accepted (bytes : List UInt8)
  /-- `att_server_request_can_send_now_event`. -/
  | requested (handle : UInt16)
  /-- `att_server_notify`, at this MTU, and whether it succeeded. -/
  | notified (handle mtu : UInt16) (payload : List UInt8) (ok : Bool)
deriving DecidableEq

/-- `tx_enqueue`. -/
def txEnqueue (data : List UInt8) (s : Nus) : Nus × Nat :=
  ({ s with tx := (s.tx.enqueue data).1 }, (s.tx.enqueue data).2)

/-- `tx_dequeue`. -/
def txDequeue (n : Nat) (s : Nus) : Nus :=
  if n ≥ s.tx.items.length then { s with tx := .empty } else { s with tx := s.tx.dequeue n }

/-- `tx_reset`. -/
def txReset (s : Nus) : Nus := { s with tx := .empty }

/-- `request_tx_flush`. -/
def requestTxFlush (s : Nus) : List Effect :=
  if s.conHandle = hciConHandleInvalid then []
  else if ¬ s.notificationsEnabled then []
  else if s.tx.items.length = 0 then []
  else [.requested s.conHandle]

/-- `tx_flush`, with what `att_server_get_mtu` returns and whether `att_server_notify` succeeds. -/
def txFlush (mtu : UInt16) (ok : Bool) (s : Nus) : Nus × List Effect :=
  if s.conHandle = hciConHandleInvalid then (s, [])
  else if ¬ s.notificationsEnabled ∨ s.tx.items.length = 0 then (s, [])
  else if mtu < 4 then (s, [])
  else
    let maxPayload := mtu.toNat - 3
    let chunk := if s.tx.items.length < maxPayload then s.tx.items.length else maxPayload
    let notified := Effect.notified s.conHandle mtu (s.tx.items.take (chunk % 2 ^ 16)) ok
    let s := if ok then txDequeue chunk s else s
    (s, notified :: if s.tx.items.length > 0 then [.requested s.conHandle] else [])

/-- `ble_nus_send`; `none` is a null pointer. -/
def bleNusSend (data : Option (List UInt8)) (s : Nus) : Nus × Nat × List Effect :=
  match data with
  | none => (s, 0, [])
  | some data =>
    if data.length = 0 then (s, 0, [])
    else
      let r := txEnqueue data s
      (r.1, r.2, requestTxFlush r.1)

/-- A call of it, and the prefix that it accepts. -/
def send (data : Option (List UInt8)) (s : Nus) : Nus × List Effect :=
  let r := bleNusSend data s
  (r.1, .accepted ((data.getD []).take r.2.1) :: r.2.2)

/-- The calls of a callback. -/
def sends : List (Option (List UInt8)) → Nus → Nus × List Effect
  | [], s => (s, [])
  | data :: rest, s =>
    let r := send data s
    let r' := sends rest r.1
    (r'.1, r.2 ++ r'.2)

/-- What the peer writes to. -/
inductive AttWrite where
  /-- `ATT_NUS_TX_CCCD_HANDLE`, with the first two bytes. -/
  | txCccd (cccd : UInt16)
  /-- `ATT_NUS_RX_VALUE_HANDLE`. -/
  | rxValue (buffer : List UInt8)
  | other

/-- `att_write_callback`, with what the callback it calls sends. -/
def attWriteCallback (handle : UInt16) (write : AttWrite) (callback : List (Option (List UInt8)))
    (s : Nus) : Nus × List Effect :=
  match write with
  | .txCccd cccd =>
    let wasEnabled := s.notificationsEnabled
    let s := { s with notificationsEnabled := cccd &&& cccdNotification ≠ 0 }
    if s.notificationsEnabled ∧ ¬ wasEnabled then
      let r := sends callback { s with conHandle := handle }
      (r.1, r.2 ++ requestTxFlush r.1)
    else (s, [])
  | .rxValue buffer => if buffer.length > 0 then sends callback s else (s, [])
  | .other => (s, [])

/-- The packets that `packet_handler` tells apart. -/
inductive Packet where
  /-- `GAP_SUBEVENT_LE_CONNECTION_COMPLETE`. -/
  | connectionComplete (handle : UInt16)
  /-- `HCI_EVENT_DISCONNECTION_COMPLETE`, with what `g_disc_cb` sends. -/
  | disconnectionComplete (callback : List (Option (List UInt8)))
  /-- `ATT_EVENT_CAN_SEND_NOW`. -/
  | canSendNow (mtu : UInt16) (ok : Bool)
  | other

/-- `packet_handler`. -/
def packetHandler (packet : Packet) (s : Nus) : Nus × List Effect :=
  match packet with
  | .connectionComplete handle =>
    (txReset { s with conHandle := handle, notificationsEnabled := false }, [])
  | .disconnectionComplete callback =>
    sends callback
      (txReset { s with conHandle := hciConHandleInvalid, notificationsEnabled := false })
  | .canSendNow mtu ok => txFlush mtu ok s
  | .other => (s, [])

/-! ## What has been done -/

/-- The bytes accepted. -/
def acceptedBytes : List Effect → List UInt8
  | [] => []
  | .accepted bytes :: es => bytes ++ acceptedBytes es
  | _ :: es => acceptedBytes es

/-- The bytes notified. -/
def notifiedBytes : List Effect → List UInt8
  | [] => []
  | .notified _ _ payload true :: es => payload ++ notifiedBytes es
  | _ :: es => notifiedBytes es

/-- A notification fits into its MTU. -/
def Effect.Fits : Effect → Prop
  | .notified _ mtu payload _ => payload.length ≤ mtu.toNat - 3
  | _ => True

/-- How many events have been asked for. -/
def requestsFor (handle : UInt16) (es : List Effect) : Nat := es.count (.requested handle)

@[simp] theorem acceptedBytes_append (es es' : List Effect) :
    acceptedBytes (es ++ es') = acceptedBytes es ++ acceptedBytes es' := by
  induction es with
  | nil => rfl
  | cons e es ih => cases e <;> simp [acceptedBytes, ih]

@[simp] theorem notifiedBytes_append (es es' : List Effect) :
    notifiedBytes (es ++ es') = notifiedBytes es ++ notifiedBytes es' := by
  induction es with
  | nil => rfl
  | cons e es ih => rcases e with _ | _ | ⟨_, _, _, _ | _⟩ <;> simp [notifiedBytes, ih]

/-- Something can be sent. -/
def Nus.Waiting (s : Nus) : Prop :=
  s.conHandle ≠ hciConHandleInvalid ∧ s.notificationsEnabled = true ∧ s.tx.items ≠ []

/-- **What a function does with the queue**: bytes pass through it, notifications fit, and if
something can be sent now, it could be before or an event is asked for. -/
structure Turns (s : Nus) (es : List Effect) (s' : Nus) : Prop where
  passes : s.tx.Passes (acceptedBytes es) (notifiedBytes es) s'.tx
  fits : ∀ e ∈ es, e.Fits
  live : s'.Waiting → (s.Waiting ∧ s'.conHandle = s.conHandle) ∨ .requested s'.conHandle ∈ es

theorem Turns.refl (s : Nus) : Turns s [] s where
  passes := .refl s.tx
  fits _ he := absurd he List.not_mem_nil
  live hw := .inl ⟨hw, rfl⟩

theorem Turns.trans {s s' s'' : Nus} {es es' : List Effect} (h : Turns s es s')
    (h' : Turns s' es' s'') :
    Turns s (es ++ es') s'' where
  passes := by
    rw [acceptedBytes_append, notifiedBytes_append]
    exact h.passes.trans h'.passes
  fits e he := (List.mem_append.mp he).elim (h.fits e) (h'.fits e)
  live hw := by
    rcases h'.live hw with ⟨hw', heq⟩ | hreq
    · rw [heq]
      rcases h.live hw' with hold | hreq
      · exact .inl hold
      · exact .inr (List.mem_append_left _ hreq)
    · exact .inr (List.mem_append_right _ hreq)

/-! ## Each function -/

theorem requestTxFlush_bytes (s : Nus) :
    acceptedBytes (requestTxFlush s) = [] ∧ notifiedBytes (requestTxFlush s) = [] ∧
      ∀ e ∈ requestTxFlush s, e.Fits := by
  unfold requestTxFlush
  split
  · exact ⟨rfl, rfl, fun e he => absurd he List.not_mem_nil⟩
  · split
    · exact ⟨rfl, rfl, fun e he => absurd he List.not_mem_nil⟩
    · split
      · exact ⟨rfl, rfl, fun e he => absurd he List.not_mem_nil⟩
      · refine ⟨rfl, rfl, fun e he => ?_⟩
        obtain rfl := List.mem_singleton.mp he
        trivial

/-- It asks for an event whenever something can be sent. -/
theorem requestTxFlush_waiting {s : Nus} (h : s.Waiting) :
    requestTxFlush s = [.requested s.conHandle] := by
  obtain ⟨hlink, hnotif, hne⟩ := h
  unfold requestTxFlush
  rw [if_neg hlink, if_neg (not_not.mpr hnotif), if_neg (by simpa using hne)]

theorem turns_requestTxFlush (s : Nus) : Turns s (requestTxFlush s) s := by
  obtain ⟨ha, hn, hfits⟩ := requestTxFlush_bytes s
  refine ⟨?_, hfits, fun hw => .inl ⟨hw, rfl⟩⟩
  rw [ha, hn]
  exact .refl s.tx

theorem turns_send (data : Option (List UInt8)) (s : Nus) :
    Turns s (send data s).2 (send data s).1 := by
  unfold send bleNusSend
  cases data with
  | none => exact ⟨.refl s.tx, by simp [Effect.Fits], fun hw => .inl ⟨hw, rfl⟩⟩
  | some data =>
    dsimp only
    by_cases hlen : data.length = 0
    · rw [if_pos hlen]
      exact ⟨.refl s.tx, by simp [Effect.Fits], fun hw => .inl ⟨hw, rfl⟩⟩
    · rw [if_neg hlen]
      obtain ⟨ha, hn, hfits⟩ := requestTxFlush_bytes (txEnqueue data s).1
      refine ⟨?_, List.forall_mem_cons.mpr ⟨trivial, hfits⟩, fun hw => .inr ?_⟩
      · show s.tx.Passes (data.take _ ++ acceptedBytes _) (notifiedBytes (requestTxFlush _)) _
        rw [ha, hn, List.append_nil]
        exact s.tx.passes_enqueue data
      · show _ ∈ _ :: requestTxFlush (txEnqueue data s).1
        rw [requestTxFlush_waiting hw]
        exact List.mem_cons_of_mem _ List.mem_cons_self

theorem turns_sends (callback : List (Option (List UInt8))) (s : Nus) :
    Turns s (sends callback s).2 (sends callback s).1 := by
  induction callback generalizing s with
  | nil => exact .refl s
  | cons data rest ih => exact (turns_send data s).trans (ih _)

theorem txDequeue_eq (n : Nat) (s : Nus) : txDequeue n s = { s with tx := s.tx.dequeue n } := by
  unfold txDequeue
  split
  · next hn =>
    congr 1
    refine Fifo.ext ?_
    rw [Fifo.dequeue_items, List.drop_of_length_le hn]
    rfl
  · rfl

/-- What is at the front of the queue is notified. -/
theorem turns_notify {s : Nus} {mtu : UInt16} {chunk : Nat} (hchunk : chunk ≤ mtu.toNat - 3)
    (ok : Bool) :
    Turns s [.notified s.conHandle mtu (s.tx.items.take chunk) ok] (if ok then txDequeue chunk s
      else s) := by
  have hfits : ∀ e ∈ [Effect.notified s.conHandle mtu (s.tx.items.take chunk) ok], e.Fits := by
    intro e he
    obtain rfl := List.mem_singleton.mp he
    show (s.tx.items.take chunk).length ≤ _
    rw [List.length_take]
    omega
  cases ok with
  | false =>
    -- it stays there if that fails
    rw [if_neg Bool.false_ne_true]
    exact ⟨.refl s.tx, hfits, fun hw => .inl ⟨hw, rfl⟩⟩
  | true =>
    rw [if_pos rfl, txDequeue_eq]
    refine ⟨?_, hfits, fun hw => .inl ⟨⟨hw.1, hw.2.1, fun hnil => hw.2.2 ?_⟩, rfl⟩⟩
    · show s.tx.Passes [] (s.tx.items.take chunk ++ []) (s.tx.dequeue chunk)
      rw [List.append_nil]
      exact s.tx.passes_dequeue chunk
    · show s.tx.items.drop chunk = []
      rw [hnil, List.drop_nil]

/-- The request at the end of `tx_flush`. -/
theorem turns_again (s : Nus) :
    Turns s (if s.tx.items.length > 0 then [.requested s.conHandle] else []) s := by
  split
  · exact ⟨.refl s.tx, by simp [Effect.Fits], fun _ => .inr List.mem_cons_self⟩
  · exact .refl s

/-- An event sends one notification, and asks for the next event if anything is left. -/
theorem turns_txFlush {mtu : UInt16} (hmtu : 23 ≤ mtu) (ok : Bool) (s : Nus) :
    Turns s (txFlush mtu ok s).2 (txFlush mtu ok s).1 ∧
      ((txFlush mtu ok s).1.Waiting →
        .requested (txFlush mtu ok s).1.conHandle ∈ (txFlush mtu ok s).2) := by
  have hsmall : ¬ mtu < 4 := by
    rw [UInt16.lt_iff_toNat_lt]
    rw [UInt16.le_iff_toNat_le] at hmtu
    exact fun h => absurd (Nat.lt_of_le_of_lt hmtu h) (by decide)
  unfold txFlush
  by_cases hlink : s.conHandle = hciConHandleInvalid
  · rw [if_pos hlink]
    exact ⟨.refl s, fun hw => absurd hlink hw.1⟩
  rw [if_neg hlink]
  by_cases hidle : ¬ s.notificationsEnabled ∨ s.tx.items.length = 0
  · rw [if_pos hidle]
    refine ⟨.refl s, fun hw => ?_⟩
    rcases hidle with hnotif | hempty
    · exact absurd hw.2.1 hnotif
    · exact absurd (List.length_eq_zero_iff.mp hempty) hw.2.2
  rw [if_neg hidle, if_neg hsmall]
  dsimp only
  generalize hchunk : (if s.tx.items.length < mtu.toNat - 3 then s.tx.items.length
    else mtu.toNat - 3) = chunk
  -- the cast to `uint16_t` does nothing: the buffer is smaller
  have hle := s.tx.le
  have hbuf : txBufSize = 1024 := rfl
  have hcast : chunk % 2 ^ 16 = chunk := by
    refine Nat.mod_eq_of_lt ?_
    split at hchunk <;> omega
  have hfit : chunk ≤ mtu.toNat - 3 := by
    split at hchunk <;> omega
  rw [hcast]
  refine ⟨(turns_notify hfit ok).trans (turns_again _), fun hw => ?_⟩
  rw [if_pos (List.length_pos_iff.mpr hw.2.2)]
  exact List.mem_cons_of_mem _ List.mem_cons_self

/-- A write to the CCCD that makes it possible to send asks for an event. -/
theorem turns_attWriteCallback (handle : UInt16) (write : AttWrite)
    (callback : List (Option (List UInt8))) (s : Nus) : Turns s (attWriteCallback handle write
      callback s).2 (attWriteCallback handle write callback s).1 := by
  cases write with
  | txCccd cccd =>
    unfold attWriteCallback
    dsimp only
    by_cases hnew : (decide (cccd &&& cccdNotification ≠ 0) = true ∧
      ¬ s.notificationsEnabled = true)
    · rw [if_pos hnew]
      generalize hs' : ({ conHandle := handle, notificationsEnabled := _, tx := s.tx } : Nus) = s'
      have hsends := turns_sends callback s'
      have hall := hsends.trans (turns_requestTxFlush (sends callback s').1)
      refine ⟨?_, hall.fits, fun hw => .inr ?_⟩
      · have hpasses := hall.passes
        rw [← hs'] at hpasses ⊢
        exact hpasses
      · refine List.mem_append_right _ ?_
        rw [requestTxFlush_waiting hw]
        exact List.mem_cons_self
    · rw [if_neg hnew]
      refine ⟨.refl s.tx, by simp, fun hw => .inl ⟨⟨hw.1, ?_, hw.2.2⟩, rfl⟩⟩
      exact Classical.not_not.mp fun hoff => hnew ⟨hw.2.1, hoff⟩
  | rxValue buffer =>
    unfold attWriteCallback
    dsimp only
    split
    · exact turns_sends callback s
    · exact .refl s
  | other => exact .refl s

/-! ## Connections -/

/-- The module, and what has been asked of BTStack. -/
structure TxWorld where
  nus : Nus
  /-- Since the last connection or disconnection. -/
  effects : List Effect
  /-- The events that have been requested and not been delivered. -/
  outstanding : UInt16 → Nat

/-- What can happen. -/
inductive TxEvent where
  | send (data : Option (List UInt8))
  | attWrite (handle : UInt16) (write : AttWrite) (callback : List (Option (List UInt8)))
  | connectionComplete (handle : UInt16)
  /-- BTStack forgets some requests. -/
  | disconnectionComplete (callback : List (Option (List UInt8))) (forgotten : UInt16 → Nat)
  /-- The event answers some of the requests. -/
  | canSendNow (handle : UInt16) (answered : Nat) (mtu : UInt16) (ok : Bool)
  | otherPacket

/-- The world behind a function. -/
def TxWorld.after (w : TxWorld) (r : Nus × List Effect) : TxWorld where
  nus := r.1
  effects := w.effects ++ r.2
  outstanding handle := w.outstanding handle + requestsFor handle r.2

def TxWorld.next (w : TxWorld) : TxEvent → Option TxWorld
  | .send data => some (w.after (Ble.send data w.nus))
  | .attWrite handle write callback => some (w.after (attWriteCallback handle write callback w.nus))
  | .connectionComplete handle =>
    some ({ w with effects := [] }.after (packetHandler (.connectionComplete handle) w.nus))
  | .disconnectionComplete callback forgotten =>
    some ({ w with effects := [], outstanding := fun h => w.outstanding h - forgotten h }.after
      (packetHandler (.disconnectionComplete callback) w.nus))
  | .canSendNow handle answered mtu ok =>
    if 1 ≤ answered ∧ answered ≤ w.outstanding handle ∧ 23 ≤ mtu then
      some ({ w with
        outstanding := fun h =>
          if h = handle then w.outstanding h - answered else w.outstanding h }.after
        (packetHandler (.canSendNow mtu ok) w.nus))
    else none
  | .otherPacket => some (w.after (packetHandler .other w.nus))

/-- All orders of events, from boot on. -/
def txWorlds : LTS TxWorld TxEvent :=
  LTS.ofFun (· = { nus := .zero, effects := [], outstanding := fun _ => 0 }) TxWorld.next

/-- What holds of the queue. -/
structure TxOk (w : TxWorld) : Prop where
  /-- Nothing is lost, and nothing is reordered. -/
  bytes : notifiedBytes w.effects ++ w.nus.tx.items = acceptedBytes w.effects
  payload : ∀ handle mtu payload ok, .notified handle mtu payload ok ∈ w.effects →
    payload.length ≤ mtu.toNat - 3
  size : w.nus.tx.items.length ≤ txBufSize
  /-- Output goes on. -/
  live : w.nus.conHandle ≠ hciConHandleInvalid → w.nus.notificationsEnabled = true →
    w.nus.tx.items ≠ [] → 0 < w.outstanding w.nus.conHandle

/-- The same, as it is carried along. -/
structure Flowing (w : TxWorld) : Prop where
  passes : Fifo.empty.Passes (acceptedBytes w.effects) (notifiedBytes w.effects) w.nus.tx
  fits : ∀ e ∈ w.effects, e.Fits
  live : w.nus.Waiting → 0 < w.outstanding w.nus.conHandle

theorem requestsFor_pos {handle : UInt16} {es : List Effect} (h : .requested handle ∈ es) :
    0 < requestsFor handle es := List.count_pos_iff.mpr h

/-- A function keeps it. -/
theorem Flowing.after {w : TxWorld} (h : Flowing w) {r : Nus × List Effect}
    (ht : Turns w.nus r.2 r.1) :
    Flowing (w.after r) where
  passes := by
    show Fifo.empty.Passes (acceptedBytes (w.effects ++ r.2))
      (notifiedBytes (w.effects ++ r.2)) r.1.tx
    rw [acceptedBytes_append, notifiedBytes_append]
    exact h.passes.trans ht.passes
  fits e he := (List.mem_append.mp he).elim (h.fits e) (ht.fits e)
  live hw := by
    show 0 < w.outstanding r.1.conHandle + requestsFor r.1.conHandle r.2
    rcases ht.live hw with ⟨hold, heq⟩ | hreq
    · rw [heq]
      exact Nat.add_pos_left (h.live hold) _
    · exact Nat.add_pos_right _ (requestsFor_pos hreq)

/-- An empty queue that nobody waits for. -/
theorem flowing_empty {s : Nus} (htx : s.tx = .empty) (hw : ¬ s.Waiting)
    (outstanding : UInt16 → Nat) :
    Flowing { nus := s, effects := [], outstanding := outstanding } where
  passes := by
    rw [htx]
    exact .refl _
  fits _ he := absurd he List.not_mem_nil
  live h := absurd h hw

/-- **Every event keeps it.** -/
theorem Flowing.next {w w' : TxWorld} (h : Flowing w) {e : TxEvent} (hs : w.next e = some w') :
    Flowing w' := by
  cases e with
  | send data =>
    obtain rfl := Option.some.inj hs
    exact h.after (turns_send data w.nus)
  | attWrite handle write callback =>
    obtain rfl := Option.some.inj hs
    exact h.after (turns_attWriteCallback handle write callback w.nus)
  | connectionComplete handle =>
    obtain rfl := Option.some.inj hs
    have hnot : ¬ (packetHandler (.connectionComplete handle) w.nus).1.Waiting :=
      fun hw => hw.2.2 rfl
    exact (flowing_empty rfl hnot w.outstanding).after (.refl _)
  | disconnectionComplete callback forgotten =>
    obtain rfl := Option.some.inj hs
    -- what `g_disc_cb` sends is in the queue, but the link is down
    have hnot : ¬ (txReset
        { w.nus with conHandle := hciConHandleInvalid, notificationsEnabled := false }).Waiting :=
      fun hw => hw.1 rfl
    exact (flowing_empty rfl hnot _).after (turns_sends callback _)
  | canSendNow handle answered mtu ok =>
    rw [TxWorld.next] at hs
    by_cases hg : 1 ≤ answered ∧ answered ≤ w.outstanding handle ∧ 23 ≤ mtu
    · rw [if_pos hg] at hs
      obtain rfl := Option.some.inj hs
      obtain ⟨hturns, hreq⟩ := turns_txFlush hg.2.2 ok w.nus
      refine ⟨?_, ?_, fun hw => Nat.add_pos_right _ (requestsFor_pos (hreq hw))⟩
      · exact (h.after hturns).passes
      · exact (h.after hturns).fits
    · rw [if_neg hg] at hs
      exact absurd hs (by simp)
  | otherPacket =>
    obtain rfl := Option.some.inj hs
    exact h.after (.refl w.nus)

theorem flowing {w : TxWorld} (h : txWorlds.Reachable w) : Flowing w := by
  refine h.inv (fun w hi => ?_) (fun w e w' hf _ hs => hf.next hs)
  obtain rfl : w = _ := hi
  exact flowing_empty rfl (fun hw => hw.2.2 rfl) _

/-- **The transmit queue loses nothing, keeps the order and does not stall.** -/
theorem txQueue_ok {w : TxWorld} (h : txWorlds.Reachable w) : TxOk w where
  bytes := (flowing h).passes.symm
  payload _ _ _ _ he := (flowing h).fits _ he
  size := w.nus.tx.le
  live hlink hnotif hne := (flowing h).live ⟨hlink, hnotif, hne⟩

/-- A peer subscribes and is greeted. The first notification fails. -/
theorem greeting_queued : ∃ w, txWorlds.Reachable w ∧ w.nus.tx.items = [104, 105] ∧ TxOk w := by
  have h₀ : txWorlds.Reachable { nus := .zero, effects := [], outstanding := fun _ => 0 } :=
    .init rfl
  have h₁ := h₀.tail (show txWorlds.step _ (.connectionComplete 64) _ from rfl)
  have h₂ := h₁.tail (show txWorlds.step _ (.attWrite 64 (.txCccd 1) [some [104, 105]]) _ from rfl)
  have h₃ := h₂.tail (show txWorlds.step _ (.canSendNow 64 1 23 false) _ from rfl)
  exact ⟨_, h₃, rfl, txQueue_ok h₃⟩

end PicoBLE.Ble
