import Libft.Networking.Lemmas.Deliveries

/-!
# Processing a datagram is a sequence of steps

What `process_datagram` may do, in terms of the connection it begins with and of what the datagram says when it is opened.
-/

namespace Libft.Networking

open Bytes List Greets ReassemblyRecord SecureChannel

/-! ## What a datagram says -/

/-- A datagram names the connection and opens to a packet. -/
def Opens (Γ : Ctx) (e : Env) (n : Node) (data : Bytes) (type : PacketType) (flag : UInt8) (pkt : Bytes) : Prop :=
  readHeader data = some ⟨type, flag, n.connection.id⟩ ∧ ∃ n', openDatagram Γ e n type data = .ok (pkt, n')

/-- A datagram from the peer opens to a frame that the connection reads. -/
structure FrameOf (Γ : Ctx) (e : Env) (n : Node) (src : Endpoint) (data : Bytes) (dlv : Delivery) (f : FrameBody) :
    Prop where
  remote : n.connection.remote = src
  state : n.connection.state = .connected
  opens : ∃ flag pkt, Opens Γ e n data .frame flag pkt ∧ readFrame pkt = some f ∧ Delivery.ofByte? flag = some dlv
  plain : n.connection.secureEnabled = false → f.keyEpoch = 0
  inRange : f.outOfRange Γ.cfg = false

/-- A frame opens a record: it is a fragment of a message that has none, and there is room and memory for it. -/
structure OpensRecord (Γ : Ctx) (e : Env) (n : Node) (f : FrameBody) : Prop where
  fragment : f.fragmentCount ≠ 1
  fresh : ∀ record ∈ n.connection.reassembly, record.messageId ≠ f.messageId
  room : reassemblyFull Γ.cfg n.connection f.totalSize.toNat = false
  memory : e.ok .reassembly = true

/-- What processing a datagram may do. -/
def ProcessLabel (Γ : Ctx) (e : Env) (n : Node) (src : Endpoint) (data : Bytes) : Label → Prop
  | .greet | .install => ∃ header, readHeader data = some header ∧ header.type.isHandshake = true
  | .opened | .emit _ | .hear _ | .release _ => True
  | .burn => ∃ place, e.ok (.send place) = false
  | .answer keyEpoch epoch => ∃ flag pkt body, Opens Γ e n data .keyUpdate flag pkt ∧ readControl pkt = some body ∧
      body.keyEpoch = keyEpoch ∧ body.value = epoch ∧ keyEpoch = n.connection.secureChannel.receiveKeyEpoch
  | .confirm epoch => ∃ flag pkt body, Opens Γ e n data .keyUpdateAck flag pkt ∧ readControl pkt = some body ∧
      body.keyEpoch = n.connection.secureChannel.receiveKeyEpoch ∧ body.value = epoch
  | .challenge source' token => source' = src ∧ token = e.random
  | .migrate => ∃ flag pkt body, Opens Γ e n data .pathResponse flag pkt ∧ readPath pkt = some body ∧
      n.connection.pathValidationPending = true ∧ n.connection.pendingPath = src ∧ n.connection.pendingPathToken = body.token
  | .record number => ∃ dlv f, FrameOf Γ e n src data dlv f ∧ f.packetNumber = number
  | .acknowledge largest ranges =>
      (∃ dlv f, FrameOf Γ e n src data dlv f ∧ f.largestAcknowledged = largest ∧ f.acknowledgedRanges = ranges) ∨
      ∃ flag pkt body, Opens Γ e n data .ack flag pkt ∧ readAck pkt = some body ∧ body.largestAcknowledged = largest ∧
        body.acknowledgedRanges = ranges
  | .deliver single m | .buffer single m => single = true →
      ∃ dlv f, FrameOf Γ e n src data dlv f ∧ f.fragmentCount = 1 ∧ m = f.message dlv n.connection.id
  | .lose _ => ∃ index, e.ok (.released index) = false
  | .openRecord held record => held = n.connection.statistics.reassemblyBytes ∧ ∃ dlv f,
      FrameOf Γ e n src data dlv f ∧ OpensRecord Γ e n f ∧ record = ofFrame Γ.cfg e.now dlv f
  | .store f => ∃ dlv, FrameOf Γ e n src data dlv f
  | .complete settled => e.ok .channelState = true → e.ok .buffered = true → e.ok .received = true → settled = true
  | _ => False

/-! ## Opening -/

variable {Γ : Ctx} {e : Env} {n n' m : Node} {src : Endpoint} {type : PacketType} {flag : UInt8} {data pkt : Bytes} {l : Label}
  {ch : SecureChannel}

/-- A datagram that opens is the packet itself, or is opened under the receive key of its epoch, which is the current one unless the
packet is a key update. -/
theorem openDatagram_cases (h : openDatagram Γ e n type data = .ok (pkt, n')) :
    (n.connection.secureEnabled = false ∧ pkt = data ∧ n' = n) ∨
    (n.connection.secureEnabled = true ∧ ∃ num ep tl tl' txt ch,
      readU64 (data.drop type.packetNumberOffset) = some (num, tl) ∧ readU64 tl = some (ep, tl') ∧
      n.connection.secureChannel.openAtEpoch Γ.crypto (e.ok .open_) num ep (data.take type.associatedDataLength)
        (data.drop type.associatedDataLength) = some (txt, ch) ∧
      pkt = data.take type.associatedDataLength ++ txt ∧
      n' = n.modify fun c => { c with secureChannel := ch }) := by
  unfold openDatagram at h
  dsimp only at h
  split at h
  · rename_i hp
    cases h
    exact .inl ⟨hp, rfl, rfl⟩
  rename_i hs
  split at h
  · cases h
  split at h
  · cases h
  rename_i num tl hn
  split at h
  · cases h
  rename_i ep tl' he
  split at h
  · cases h
  split at h
  · cases h
  rename_i txt ch ho
  cases h
  exact .inr ⟨by simpa using hs, num, ep, tl, tl', txt, ch, hn, he, ho, rfl, rfl⟩

/-- Opening changes the windows of the channel only. -/
theorem openDatagram_eq_ok (h : openDatagram Γ e n type data = .ok (pkt, n')) :
    ∃ ch, n' = n.modify (fun c => { c with secureChannel := ch }) ∧
      ch.receiveKeyEpoch = n.connection.secureChannel.receiveKeyEpoch ∧ Performs Γ (· = .opened) 0 n n' := by
  rcases openDatagram_cases h with ⟨-, -, rfl⟩ | ⟨-, nm, ep, -, -, p, ch, -, -, ho, -, rfl⟩
  · exact ⟨n'.connection.secureChannel, rfl, rfl, .refl _⟩
  · refine ⟨ch, rfl, ?_, .single (.opened (core n) _ _ _ _ _ _ ch ho) rfl rfl⟩
    rcases openAtEpoch_eq_some ho with ⟨-, -, -, rfl⟩ | ⟨-, -, -, -, -, rfl⟩ <;> rfl

/-! ## Control packets -/

theorem core_processFlowControl : core (processFlowControl e n data).1 = core n := by
  unfold processFlowControl
  split
  · rfl
  split
  · rfl
  split <;> rfl

/-- What the answer to a key update may do. -/
def Answers (e : Env) (currentEpoch keyEpoch requestedEpoch : UInt64) : Label → Prop
  | .emit _ => True
  | .burn => ∃ place, e.ok (.send place) = false
  | .answer k v => k = keyEpoch ∧ v = requestedEpoch ∧ k = currentEpoch
  | _ => False

theorem performs_answerKeyUpdate (keyEpoch req : UInt64) (hs : n.connection.secureEnabled = true) :
    Performs Γ (Answers e n.connection.secureChannel.receiveKeyEpoch keyEpoch req) 1 n
      (answerKeyUpdate Γ e n keyEpoch req).1 := by
  have hsn := handles_sendKeyUpdateAck (Γ := Γ) (e := e) (n := n) req
  unfold answerKeyUpdate
  dsimp only
  split
  · rename_i hn
    generalize sendKeyUpdateAck Γ e n req = r at hsn ⊢
    obtain ⟨n', code⟩ := r
    rcases hsn.success_or (P := Answers e _ keyEpoch req) id with ⟨rfl, ack, ch, hch, heq⟩ | ⟨hcd, hf⟩
    · -- the channel that sealed the answer is initialised and has the receive key it had, so the rotation succeeds
      have hc : n'.connection.secureChannel = ch := congrArg Core.channel heq
      obtain ⟨hi, -, hc'⟩ := hch.sealed (keyPacket_eq n rfl).1
      have hr : ∃ ch', ch.updateReceiveKeyEpoch Γ.crypto req = .ok ch' := by
        have hi' : ¬ch.initialised = false := by
          rw [hc']
          simpa using hi
        have hlt : ¬req ≤ ch.receiveKeyEpoch := by
          rw [hc']
          exact UInt64.not_le.2 hn.2
        exact ⟨_, by rw [updateReceiveKeyEpoch, if_neg hi', if_neg hlt]⟩
      obtain ⟨ch', hr⟩ := hr
      simp only [hc, hr]
      have hcr := congrArg (fun c : Core => { c with channel := ch' }) heq
      refine .single (i := .answer (core n).channel.receiveKeyEpoch req) ?_ ⟨hn.1.symm, rfl, rfl⟩ rfl
      exact Eq.mpr (congrArg (Step Γ (core n) _) hcr)
        (.answer (core n) n.connection.remote req ack ch ch' hs hn.2 hch hr)
    · split
      · rename_i hsuc
        exact absurd (congrArg Prod.snd hsuc) hcd
      · exact hf
  split
  · rename_i ho
    refine (hsn.performs ⟨hs, ho.2⟩).imp fun l hl => ?_
    cases l <;> first | exact hl | exact hl.elim
  · exact .refl _

theorem performs_processKeyUpdate (hm : Opens Γ e n data .keyUpdate flag pkt)
    (he : m.connection.secureChannel.receiveKeyEpoch = n.connection.secureChannel.receiveKeyEpoch) :
    Performs Γ (ProcessLabel Γ e n src data) 1 m (processKeyUpdate Γ e m pkt).1 := by
  unfold processKeyUpdate
  split
  · exact .refl _
  rename_i body hb
  split
  · exact .refl _
  rename_i hs
  have ha := (performs_answerKeyUpdate (Γ := Γ) (e := e) (n := m) body.keyEpoch body.value (by simpa using hs)).mono
    (Q := ProcessLabel Γ e n src data) (m := 1) (fun l hl => ?_) (Nat.le_refl 1)
  · generalize answerKeyUpdate Γ e m body.keyEpoch body.value = r at ha ⊢
    split
    · exact ha
    · exact ha
  · cases l with
    | emit p => trivial
    | burn => exact hl
    | answer k v => exact ⟨flag, pkt, body, hm, hb, hl.1.symm, hl.2.1.symm, hl.2.2.trans he⟩
    | _ => exact hl.elim

theorem performs_processKeyUpdateAck (hm : Opens Γ e n data .keyUpdateAck flag pkt)
    (he : m.connection.secureChannel.receiveKeyEpoch = n.connection.secureChannel.receiveKeyEpoch) :
    Performs Γ (ProcessLabel Γ e n src data) 0 m (processKeyUpdateAck Γ e m pkt).1 := by
  unfold processKeyUpdateAck
  split
  · exact .refl _
  rename_i body hb
  dsimp only
  split
  · exact .refl _
  rename_i hc
  simp only [not_or, Bool.not_eq_false, Decidable.not_not] at hc
  obtain ⟨hs, hk, hp, hv⟩ := hc
  split
  · exact .refl _
  · rename_i ch hch
    rw [hv] at hch
    exact .single (.confirm (core m) ch hs hp hch) ⟨flag, pkt, body, hm, hb, hk.trans he, hv⟩ rfl

theorem Sends.process (h : Sends e l) : ProcessLabel Γ e n src data l := by
  cases l <;> first | exact h | exact h.elim

theorem performs_processPath (hm : Opens Γ e n data type flag pkt) (hty : type = .pathChallenge ∨ type = .pathResponse) :
    Performs Γ (ProcessLabel Γ e n src data) 1 (n.modify fun c => { c with secureChannel := ch })
      (processPath Γ e (n.modify fun c => { c with secureChannel := ch }) src type pkt).1 := by
  unfold processPath
  split
  · exact .refl _
  rename_i body hb
  dsimp only
  split
  · exact .refl _
  split
  · exact (performs_sendPathPacket _).imp fun _ => Sends.process
  rename_i hc
  split
  · exact .refl _
  rename_i hmt
  simp only [not_or, Bool.not_eq_false, Decidable.not_not] at hmt
  obtain ⟨hp, hpt, ht⟩ := hmt
  obtain rfl := hty.resolve_left hc
  -- the step puts the address that was challenged in the place of the peer's, which is where the answer came from
  have hs := Step.migrate (Γ := Γ) (core (n.modify fun c => { c with secureChannel := ch })) hp
  rw [show (core (n.modify fun c => { c with secureChannel := ch })).pendingPath = src from hpt] at hs
  exact .single hs ⟨flag, pkt, body, hm, hb, hp, hpt, ht⟩ rfl

theorem performs_challengePath : Performs Γ (ProcessLabel Γ e n src data) 1 m (challengePath Γ e m src).1 := by
  unfold challengePath
  split
  · exact .refl _
  split
  · exact .refl _
  dsimp only
  have hc : Performs Γ (ProcessLabel Γ e n src data) 0 m (m.modify fun c => { c with
      pendingPath := src
      pendingPathToken := e.random
      pathValidationPending := true
      pathChallengeSent := e.now }) :=
    .single (.challenge (core m) src e.random) ⟨rfl, rfl⟩ rfl
  generalize m.modify _ = m' at hc ⊢
  have hs : Performs Γ (ProcessLabel Γ e n src data) 1 m' (sendPathPacket Γ e m' .pathChallenge src e.random).1 :=
    (performs_sendPathPacket _).imp fun _ => Sends.process
  refine hc.trans (m := 1) ?_
  generalize sendPathPacket Γ e m' .pathChallenge src e.random = r at hs ⊢
  split
  · exact hs
  · exact hs

theorem core_processClose : core (processClose e n data).1 = core n := by
  unfold processClose
  split
  · rfl
  split <;> rfl

theorem performs_processAck (hm : Opens Γ e n data .ack flag pkt) :
    Performs Γ (ProcessLabel Γ e n src data) 0 m (processAck e m pkt).1 := by
  unfold processAck
  split
  · exact .refl _
  rename_i body hb
  split
  · exact .refl _
  · rw [Performs, core_applyAck]
    exact .single (.acknowledge _ _ _) (.inr ⟨flag, pkt, body, hm, hb, rfl, rfl⟩) rfl

/-! ## Frames -/

/-- What hearing from the peer leaves alone besides what the core shows: the records, the room for more, and the channels. -/
structure SameRoom (c c' : ConnectionRecord) : Prop where
  reassembly : c'.reassembly = c.reassembly
  credit : c'.receiveFlowCredit = c.receiveFlowCredit
  bytes : c'.statistics.reassemblyBytes = c.statistics.reassemblyBytes
  channels : c'.channels = c.channels

theorem SameRoom.trans {c1 c2 c3 : ConnectionRecord} (h : SameRoom c1 c2) (h' : SameRoom c2 c3) : SameRoom c1 c3 :=
  ⟨h'.reassembly.trans h.reassembly, h'.credit.trans h.credit, h'.bytes.trans h.bytes, h'.channels.trans h.channels⟩

/-- The room for a record depends on the records, on the credit and on the bytes held. -/
theorem SameRoom.reassemblyFull_eq {c c' : ConnectionRecord} (h : SameRoom c c') (cfg : TransportConfig) (tot : Nat) :
    reassemblyFull cfg c' tot = reassemblyFull cfg c tot := by
  simp only [reassemblyFull, h.reassembly, h.credit, h.bytes]

theorem sameRoom_acknowledgePacket (now : UInt64) (c : ConnectionRecord) (p : SentPacket) : SameRoom c (acknowledgePacket now c p) := by
  unfold acknowledgePacket
  by_cases hr : p.retransmitted = false
  · simp only [hr, if_true]
    exact ⟨rfl, rfl, rfl, rfl⟩
  · simp only [hr]
    exact ⟨rfl, rfl, rfl, rfl⟩

theorem sameRoom_applyAck (now top : UInt64) (rs : List (UInt16 × UInt16)) (c : ConnectionRecord) :
    SameRoom c (applyAck now c top rs) := by
  have hf (done : List SentPacket) : ∀ c : ConnectionRecord, SameRoom c (done.foldl (acknowledgePacket now) c) := by
    induction done with
    | nil => exact fun _ => ⟨rfl, rfl, rfl, rfl⟩
    | cons p done ih => exact fun c => (sameRoom_acknowledgePacket now c p).trans (ih _)
  exact (hf _ c).trans ⟨rfl, rfl, rfl, rfl⟩

theorem sameRoom_recordReceived (num : UInt64) (c : ConnectionRecord) : SameRoom c (c.recordReceived num) := by
  unfold ConnectionRecord.recordReceived
  split <;> exact ⟨rfl, rfl, rfl, rfl⟩

/-- The connection that a frame finds once its number is recorded and its acknowledgement applied. -/
def heard (e : Env) (size : Nat) (f : FrameBody) (c : ConnectionRecord) : ConnectionRecord :=
  applyAck e.now ((countReceived e.now size c).recordReceived f.packetNumber) f.largestAcknowledged f.acknowledgedRanges

theorem sameRoom_heard (e : Env) (size : Nat) (f : FrameBody) (c : ConnectionRecord) : SameRoom c (heard e size f c) := by
  have hc : SameRoom c (countReceived e.now size c) := ⟨rfl, rfl, rfl, rfl⟩
  exact (hc.trans (sameRoom_recordReceived _ _)).trans (sameRoom_applyAck _ _ _ _)

theorem core_heard (e : Env) (size : Nat) (f : FrameBody) (n : Node) :
    core (n.modify (heard e size f)) = ((core n).record f.packetNumber).acknowledge
      fun p => isAcknowledged f.largestAcknowledged f.acknowledgedRanges p.packetNumber := by
  have hr := core_recordReceived f.packetNumber (n.modify (countReceived e.now size))
  have ha := core_applyAck e.now f.largestAcknowledged f.acknowledgedRanges
    ((n.modify (countReceived e.now size)).modify fun c => c.recordReceived f.packetNumber)
  rw [hr] at ha
  exact ha

section Frames

variable {dlv : Delivery} {f : FrameBody}

theorem Delivers.process {single : Bool} {msg : ReceivedMessage} (h : Delivers e single msg l)
    (hs : single = true → ∃ dlv f, FrameOf Γ e n src data dlv f ∧ f.fragmentCount = 1 ∧
      msg = f.message dlv n.connection.id) : ProcessLabel Γ e n src data l := by
  cases l with
  | hear m => trivial
  | release m => trivial
  | lose m => exact h
  | deliver _ _ | buffer _ _ =>
    obtain ⟨rfl, rfl⟩ := h
    exact hs
  | _ => exact h.elim

theorem performs_storeFragment (hf : FrameOf Γ e n src data dlv f) {i : Nat} {rec : ReassemblyRecord}
    (hc : m.connection.reassembly[i]? = some rec) (hid : rec.messageId = f.messageId) :
    Performs Γ (ProcessLabel Γ e n src data) 0 m (storeFragment e m i rec f).1 := by
  unfold storeFragment
  dsimp only
  split
  · exact .refl _
  split
  · exact .refl _
  rename_i hsz
  split
  · exact .refl _
  have hs : Performs Γ (ProcessLabel Γ e n src data) 0 m (m.modify fun c => { c with
      reassembly := c.reassembly.set i (rec.store f.fragmentOffset.toNat f.payload)
      statistics := { c.statistics with fragmentsReassembled := c.statistics.fragmentsReassembled + 1 } }) :=
    .single (.store (core m) i rec f hc hid (Nat.not_lt.1 hsz)) ⟨dlv, hf⟩ rfl
  generalize hm' : m.modify _ = m' at hs
  have hr : m'.connection.reassembly = m.connection.reassembly.set i (rec.store f.fragmentOffset.toNat f.payload) := by
    rw [← hm']
    rfl
  have hi : i < m.connection.reassembly.length := (List.getElem?_eq_some_iff.1 hc).1
  have hr' : m'.connection.reassembly[i]? = some (rec.store f.fragmentOffset.toNat f.payload) := by
    rw [hr, getElem?_set_self hi]
  generalize rec.store f.fragmentOffset.toNat f.payload = record' at hr'
  split
  · exact hs
  rename_i ht
  split
  · exact hs
  -- the record is complete: its message is delivered while the record still stands, and then the record goes
  have ho : (core m').Origin false (record'.message m'.connection.id) :=
    .inr ⟨record', mem_of_getElem? hr', by simpa using ht, rfl⟩
  have hd := performs_deliverAndNotify (Γ := Γ) (e := e) ho
  have hk : (deliverAndNotify e m' (record'.message m'.connection.id)).connection.reassembly = m'.connection.reassembly :=
    Delivers.reassembly_eq hd
  refine (hs.trans (m := 0) (hd.imp fun _ h => h.process nofun)).trans (m := 0) ?_
  refine .single (.complete _ i record' (by rw [← hr', ← hk]; rfl)
    (e.ok .channelState && e.ok .buffered && e.ok .received) (by simpa using ht) fun hok hrl => ⟨m'.connection.id, ?_⟩)
    (fun hl hb hr => by rw [hl, hb, hr]; rfl) rfl
  simp only [Bool.and_eq_true] at hok
  rcases deliverAndNotify_settles (n := m') (m := record'.message m'.connection.id) hrl hok.1.1 hok.1.2 hok.2 with
    ⟨hold, hc⟩ | hst
  · rw [hc]
    exact .inl hold
  · exact .inr hst

theorem performs_processFragment (hf : FrameOf Γ e n src data dlv f) (ht : f.fragmentCount ≠ 1)
    (hr : SameRoom n.connection m.connection) : Performs Γ (ProcessLabel Γ e n src data) 0 m (processFragment Γ e m dlv f).1 := by
  unfold processFragment
  dsimp only
  split
  · rename_i i hfn
    split
    · rename_i rec hc
      refine performs_storeFragment hf hc ?_
      obtain ⟨hlt, hmt, -⟩ := findIdx?_eq_some_iff_getElem.1 hfn
      rw [getElem?_eq_getElem hlt, Option.some.injEq] at hc
      rw [← hc]
      simpa using hmt
    · exact .refl _
  · rename_i hfn
    have hfr : ∀ rec ∈ m.connection.reassembly, rec.messageId ≠ f.messageId := by
      simpa [findIdx?_eq_none_iff] using hfn
    split
    · exact .refl _
    rename_i hfl
    split
    · exact .refl _
    rename_i hm
    have ho : OpensRecord Γ e n f :=
      ⟨ht, hr.reassembly ▸ hfr, by
        rw [← hr.reassemblyFull_eq Γ.cfg f.totalSize.toNat]
        simpa using hfl, by simpa using hm⟩
    have hop : Performs Γ (ProcessLabel Γ e n src data) 0 m (m.modify fun c => { c with
        reassembly := c.reassembly ++ [ofFrame Γ.cfg e.now dlv f]
        statistics := { c.statistics with
          reassemblyBytes := c.statistics.reassemblyBytes + f.totalSize.toNat
          reassemblyMessages := c.statistics.reassemblyMessages + 1 } }) :=
      .single (.openRecord (core m) (ofFrame Γ.cfg e.now dlv f) hfr) ⟨hr.bytes, dlv, f, hf, ho, rfl⟩ rfl
    exact hop.trans (m := 0) (performs_storeFragment hf (by simp [Node.modify]) rfl)

theorem performs_processFrame (hr : n.connection.remote = src) (hm : Opens Γ e n data .frame flag pkt) {ch : SecureChannel} :
    Performs Γ (ProcessLabel Γ e n src data) 0 (n.modify fun c => { c with secureChannel := ch })
      (processFrame Γ e (n.modify fun c => { c with secureChannel := ch }) flag pkt).1 := by
  generalize hn' : n.modify (fun c => { c with secureChannel := ch }) = n'
  unfold processFrame
  split
  swap
  · exact .refl _
  rename_i f dlv hrd hd
  split
  · exact .refl _
  rename_i hp
  split
  · exact .refl _
  rename_i hst
  split
  · exact .refl _
  rename_i hrg
  have hf : FrameOf Γ e n src data dlv f := by
    subst hn'
    refine ⟨hr, by simpa using hst, ⟨flag, pkt, hm, hrd, hd⟩, fun hs => ?_, by simpa using hrg⟩
    by_contra hne
    exact hp ⟨hs, hne⟩
  -- the number is recorded and the acknowledgement applied before anything decides what becomes of the payload
  have hh : Performs Γ (ProcessLabel Γ e n src data) 0 n' (n'.modify (heard e pkt.length f)) := by
    rw [Performs, core_heard]
    exact Does.trans (k := 0) (m := 0) (.single (.record _ _) ⟨dlv, f, hf, rfl⟩ rfl)
      (.single (.acknowledge _ _ _) (.inl ⟨dlv, f, hf, rfl, rfl⟩) rfl)
  refine hh.trans (m := 0) ?_
  have hid : (core (n'.modify (heard e pkt.length f))).id = n.connection.id := by
    rw [core_heard]
    subst hn'
    rfl
  change Performs Γ (ProcessLabel Γ e n src data) 0 (n'.modify (heard e pkt.length f))
    (processPayload Γ e (n'.modify (heard e pkt.length f)) dlv f).1
  unfold processPayload
  split
  · rename_i hc
    split
    · exact .refl _
    · refine (performs_deliverAndNotify (.inl rfl : (core _).Origin true _)).imp fun _ h => h.process fun _ => ?_
      exact ⟨dlv, f, hf, hc, by rw [← hid]; rfl⟩
  · rename_i hc
    have hsm : SameRoom n.connection n'.connection := hn' ▸ ⟨rfl, rfl, rfl, rfl⟩
    exact performs_processFragment hf hc (hsm.trans (sameRoom_heard e pkt.length f n'.connection))

end Frames

/-! ## The packet of a connection -/

theorem performs_processOpened (hm : Opens Γ e n data type flag pkt)
    (he : ch.receiveKeyEpoch = n.connection.secureChannel.receiveKeyEpoch) :
    Performs Γ (ProcessLabel Γ e n src data) 1 (n.modify fun c => { c with secureChannel := ch })
      (processOpened Γ e (n.modify fun c => { c with secureChannel := ch }) src type flag pkt).1 := by
  have hr : (n.modify fun c => { c with secureChannel := ch }).connection.remote = n.connection.remote := rfl
  unfold processOpened
  cases type with
  | flowControl =>
    exact .of_eq core_processFlowControl
  | keyUpdate => exact performs_processKeyUpdate hm he
  | keyUpdateAck => exact (performs_processKeyUpdateAck hm he).le (by omega)
  | pathChallenge => exact performs_processPath hm (.inl rfl)
  | pathResponse => exact performs_processPath hm (.inr rfl)
  | close =>
    dsimp only
    split
    · exact performs_challengePath
    · exact .of_eq core_processClose
  | ack =>
    dsimp only
    split
    · exact performs_challengePath
    · exact (performs_processAck hm).le (by omega)
  | frame =>
    dsimp only
    split
    · exact performs_challengePath
    · rename_i hs
      rw [hr] at hs
      exact (performs_processFrame (Decidable.not_not.1 hs) hm).le (by omega)
  | _ => exact .refl _

theorem performs_processPacket (hh : readHeader data = some ⟨type, flag, n.connection.id⟩) :
    Performs Γ (ProcessLabel Γ e n src data) 1 n (processPacket Γ e n src type flag data).1 := by
  unfold processPacket
  dsimp only
  split
  · exact .refl _
  split
  · exact .refl _
  split
  · exact .refl _
  · rename_i pkt n' hop
    obtain ⟨ch, rfl, he, ho⟩ := openDatagram_eq_ok hop
    refine Does.trans (k := 0) (m := 1) (ho.imp fun l hl => ?_) (performs_processOpened ⟨hh, _, hop⟩ he)
    rw [hl]
    trivial

/-! ## Handshake packets -/

section Handshakes

variable {pay : Bytes} {size : Nat}

/-- What a handshake packet may do. -/
def Introduces : Label → Prop
  | .greet | .install => True
  | _ => False

theorem Greets.introduces (h : Greets l) : Introduces l := by
  cases l <;> first | exact h | exact h.elim

theorem performs_retryWithCookie : Performs Γ Introduces 0 n (retryWithCookie Γ e n pay).1 := by
  unfold retryWithCookie
  split
  · exact .refl _
  · rename_i handshake _
    exact (performs_sendHandshake (n := n.modify fun c => { c with handshake := handshake }) rfl _).imp fun _ => introduces

theorem performs_processRetry : Performs Γ Introduces 0 n (processRetry Γ e n pay size).1 := by
  have hr : Performs Γ Introduces 0 n (retryWithCookie Γ e n pay).1 := performs_retryWithCookie
  unfold processRetry
  dsimp only
  split
  · exact .refl _
  split
  · exact hr
  · exact hr

/-- A connection whose handshake may have moved on, and whose channel may have been given its first keys. -/
def Introduced (c c' : ConnectionRecord) : Prop :=
  ∃ handshake ch, c' = { c with handshake := handshake, secureChannel := ch } ∧
    (ch = c.secureChannel ∨ ∃ sendKey receiveKey, c.secureChannel.initializeDirectional sendKey receiveKey = .ok ch)

theorem introduced_installKeys (c : ConnectionRecord) : Introduced c (installKeys Γ c).1 := by
  unfold installKeys
  split
  · rename_i hsk _
    dsimp only
    split
    · exact ⟨hsk, _, rfl, .inl rfl⟩
    · rename_i sk rk _
      split
      · exact ⟨hsk, _, rfl, .inl rfl⟩
      · rename_i ch hch
        exact ⟨hsk, ch, rfl, .inr ⟨sk, rk, hch⟩⟩
  · rename_i hsk _ _ _
    exact ⟨hsk, _, rfl, .inl rfl⟩

theorem introduced_acceptHello (c : ConnectionRecord) (he : Bytes) : Introduced c (acceptHello Γ c he).1 := by
  unfold acceptHello
  split
  · exact ⟨_, _, rfl, .inl rfl⟩
  · rename_i handshake _
    dsimp only
    split
    · exact ⟨handshake, _, rfl, .inl rfl⟩
    split
    · exact introduced_installKeys { c with handshake := handshake }
    · exact ⟨handshake, _, rfl, .inl rfl⟩

theorem Introduced.performs {c : ConnectionRecord} (h : Introduced n.connection c) : Performs Γ Introduces 0 n (n.modify fun _ => c) := by
  obtain ⟨hsk, ch, rfl, rfl | ⟨sk, rk, hch⟩⟩ := h
  · exact .refl _
  · exact .single (.install (core n) sk rk ch hch) trivial rfl

theorem performs_answerHello : Performs Γ Introduces 0 n (answerHello Γ e n).1 := by
  have hh : Performs Γ Introduces 0 n (sendHandshakeHello Γ e n).1 := (performs_sendHandshake rfl _).imp fun _ => introduces
  unfold answerHello
  generalize sendHandshakeHello Γ e n = r at hh
  split
  · rename_i n'
    have hf : Performs Γ Introduces 0 n' (sendHandshakeFinished Γ e n').1 :=
      (performs_sendHandshake rfl _).imp fun _ => introduces
    have hb := hh.trans hf
    generalize sendHandshakeFinished Γ e n' = r' at hb
    split
    · exact hb
    · exact hb
  · exact hh

theorem performs_processHello : Performs Γ Introduces 0 n (processHello Γ e n src pay size).1 := by
  unfold processHello
  dsimp only
  split
  · exact .refl _
  split
  · exact .refl _
  split
  · exact .refl _
  have ha := (introduced_acceptHello (Γ := Γ) n.connection pay).performs (Γ := Γ)
  generalize acceptHello Γ n.connection pay = a at ha ⊢
  generalize n.modify (fun _ => a.1) = n' at ha ⊢
  have han : Performs Γ Introduces 0 n (if a.2 = .success ∧ n'.connection.handshake.role = .server ∧
      n'.connection.incomingPending = false then answerHello Γ e n' else (n', a.2)).1 := by
    split
    · exact ha.trans (m := 0) performs_answerHello
    · exact ha
  generalize (if a.2 = .success ∧ n'.connection.handshake.role = .server ∧
      n'.connection.incomingPending = false then answerHello Γ e n' else (n', a.2)) = r at han ⊢
  split
  · exact han
  · exact han

theorem performs_processFinished : Performs Γ Introduces 0 n (processFinished Γ e n pay size).1 := by
  unfold processFinished
  dsimp only
  split
  · exact .refl _
  split
  · exact .refl _
  generalize hn' : n.modify (fun c => { c with handshake := (n.connection.handshake.verifyFinished Γ.crypto pay).1 }) = n'
  have hc : core n = core n' := by
    rw [← hn']
    rfl
  have hf : Performs Γ Introduces 0 n (if n.connection.handshake.role = .client ∧ n.connection.finishedSent = false then
      sendHandshakeFinished Γ e n' else (n', .success)).1 := by
    rw [Performs, hc]
    split
    · exact (performs_sendHandshake rfl _).imp fun _ => introduces
    · exact .refl _
  generalize (if n.connection.handshake.role = .client ∧ n.connection.finishedSent = false then
      sendHandshakeFinished Γ e n' else (n', .success)) = r at hf ⊢
  split
  · split
    · exact hf
    · exact hf
  · exact hf

theorem performs_processHandshake : Performs Γ Introduces 0 n (processHandshake Γ e n src type data).1 := by
  unfold processHandshake
  split
  · exact .refl _
  split
  · exact .refl _
  split
  · exact performs_processRetry
  · exact performs_processHello
  · exact performs_processFinished

end Handshakes

/-! ## The call -/

/-- Processing a datagram is a sequence of steps, with one packet at most. -/
theorem performs_processDatagram : Performs Γ (ProcessLabel Γ e n src data) 1 n (processDatagram Γ e n src data).1 := by
  unfold processDatagram
  split
  · exact .refl _
  rename_i hdr hh
  split
  · exact .refl _
  rename_i hid
  split
  · rename_i ht
    refine performs_processHandshake.mono (fun l hl => ?_) (Nat.zero_le 1)
    cases l <;> first | exact ⟨hdr, hh, ht⟩ | exact hl.elim
  · refine performs_processPacket ?_
    rw [hh, ← Decidable.not_not.1 hid]

end Libft.Networking
