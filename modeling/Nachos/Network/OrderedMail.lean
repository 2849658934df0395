import Nachos.Network.PostOffice

/-!
# The mail that arrives

Mail may be lost, but what arrives is in order and not corrupted. On its way a message is in a
socket, in the inbox of the device, in the buffer of the postal worker and in a mailbox; `Inv` says
that what is in these places was sent, is unchanged, and is in the order in which it was sent, and
that each mailbox gets the messages for it and no others. It says also how the semaphore of the
postal worker counts the packets in the inbox.

`mail_ordered` states this for every order of events on all machines.
-/

namespace Nachos.Network

open Bytes Runs

/-! ### Statement -/

/-- What a message says. -/
def Letter.content (l : Letter) : MailHeader × List Byte := (l.mailHdr, l.data)

/-- The messages of the machine `a` to the mailbox `box` of the machine `addr`, in the order in which
they were sent. -/
def State.lettersTo (s : State) (addr : Word) (box : Int) (a : Word) :
    List (MailHeader × List Byte) :=
  (s.sent.filter fun l => l.sender = a ∧ l.toAddr = addr ∧ l.mailHdr.toBox.toInt = box).map
    Letter.content

/-- The messages among `mails` that were sent by the machine `a`. -/
def State.mailsFrom (s : State) (mails : List (Mail × Nat)) (a : Word) :
    List (MailHeader × List Byte) :=
  (mails.filter fun p => (s.sent[p.2]?).map Letter.sender = some a).map
    fun p => (p.1.mailHdr, p.1.data)

/-- Every mailbox has got mail only as it was sent to it, with the address of its sender, and the
postal worker calls `Receive` only for a packet. -/
structure Sound (s : State) : Prop where
  /-- A mailbox gets what is put for it, in that order, and keeps it until it is taken. -/
  kept : ∀ {addr o}, s.office addr = some o → ∀ box,
    o.received box = o.put.filter fun p => p.1.mailHdr.toBox.toInt = box
  box : ∀ {addr o}, s.office addr = some o → ∀ box, ∀ p ∈ o.received box,
    p.1.pktHdr.toAddr = addr ∧ p.1.mailHdr.toBox.toInt = box
  sender : ∀ {addr o}, s.office addr = some o → ∀ box, ∀ p ∈ o.received box,
    (s.sent[p.2]?).map Letter.sender = some p.1.pktHdr.fromAddr
  length : ∀ {addr o}, s.office addr = some o → ∀ box, ∀ p ∈ o.received box,
    p.1.data.length = p.1.mailHdr.length.toNat
  /-- No message is twice in a mailbox. -/
  once : ∀ {addr o}, s.office addr = some o → ∀ box,
    (o.received box).Pairwise fun p p' => p.2 < p'.2
  /-- No message is in two mailboxes. -/
  apart : ∀ {addr o}, s.office addr = some o → ∀ {box box'}, ∀ p ∈ o.received box,
    ∀ p' ∈ o.received box', p.2 = p'.2 → box = box'
  order : ∀ {addr o}, s.office addr = some o → ∀ box a,
    List.Sublist (s.mailsFrom (o.received box) a) (s.lettersTo addr box a)
  buffered : ∀ {addr o}, s.office addr = some o → o.worker = .awake → o.inHdr.length ≠ 0

/-! ### Headers in memory -/

section Memory

variable {image image' : Image} {a b n i : Nat}

theorem bcopy_eq : bcopy image' b image a n i =
    if a ≤ i ∧ i < a + n then image' (b + (i - a)) else image i := by
  unfold bcopy
  rw [splice_toList]

theorem load_writeWords (image : Image) (a : Nat) (w₀ w₁ w₂ : Word) :
    load (writeWords image a w₀ w₁ w₂) a 4 = w₀ ∧
      load (writeWords image a w₀ w₁ w₂) (a + 4) 4 = w₁ ∧
      load (writeWords image a w₀ w₁ w₂) (a + 8) 4 = w₂ := by
  unfold writeWords
  refine ⟨?_, ?_, ?_⟩
  · rw [load_store_of_disjoint _ _ (by omega), load_store_of_disjoint _ _ (by omega),
      load_store _ _ (by decide)]
  · rw [load_store_of_disjoint _ _ (by omega), load_store _ _ (by decide)]
  · rw [load_store _ _ (by decide)]

/-- Three words depend on their twelve bytes. -/
theorem load_words_congr (h : ∀ k < headerSize, image (a + k) = image' (b + k)) :
    (load image a 4 : Word) = load image' b 4 ∧
      (load image (a + 4) 4 : Word) = load image' (b + 4) 4 ∧
      (load image (a + 8) 4 : Word) = load image' (b + 8) 4 := by
  unfold headerSize at h
  refine ⟨load_eq_of_bytes fun k hk => h k (by omega), load_eq_of_bytes fun k hk => ?_,
    load_eq_of_bytes fun k hk => ?_⟩
  · rw [Nat.add_assoc, Nat.add_assoc]
    exact h (4 + k) (by omega)
  · rw [Nat.add_assoc, Nat.add_assoc]
    exact h (8 + k) (by omega)

theorem PacketHeader.read_write (h : PacketHeader) (image : Image) (a : Nat) :
    PacketHeader.read (h.write image a) a = h := by
  obtain ⟨h₀, h₁, h₂⟩ := load_writeWords image a h.toAddr h.fromAddr h.length
  unfold PacketHeader.read PacketHeader.write
  rw [h₀, h₁, h₂]

theorem MailHeader.read_write (h : MailHeader) (image : Image) (a : Nat) :
    MailHeader.read (h.write image a) a = h := by
  obtain ⟨h₀, h₁, h₂⟩ := load_writeWords image a h.toBox h.fromBox h.length
  unfold MailHeader.read MailHeader.write
  rw [h₀, h₁, h₂]

theorem PacketHeader.read_congr (h : ∀ k < headerSize, image (a + k) = image' (b + k)) :
    PacketHeader.read image a = PacketHeader.read image' b := by
  obtain ⟨h₀, h₁, h₂⟩ := load_words_congr h
  unfold PacketHeader.read
  rw [h₀, h₁, h₂]

theorem MailHeader.read_congr (h : ∀ k < headerSize, image (a + k) = image' (b + k)) :
    MailHeader.read image a = MailHeader.read image' b := by
  obtain ⟨h₀, h₁, h₂⟩ := load_words_congr h
  unfold MailHeader.read
  rw [h₀, h₁, h₂]

end Memory

/-! ### A message on its way -/

/-- The packet header of a message. -/
def Letter.header (l : Letter) : PacketHeader where
  toAddr := l.toAddr
  fromAddr := l.sender
  length := l.mailHdr.length + BitVec.ofNat 32 headerSize

/-- The data of a message is as long as its header says, and it fits into a packet. -/
structure Letter.Fits (l : Letter) : Prop where
  data : l.data.length = l.mailHdr.length.toNat
  size : l.mailHdr.length.toNat ≤ maxMailSize

/-- The mail header and the data of the message are in memory, from the address `a` on. -/
structure Carries (image : Image) (a : Nat) (l : Letter) : Prop where
  header : MailHeader.read image a = l.mailHdr
  data : ∀ k < l.mailHdr.length.toNat, image (a + headerSize + k) = l.data.getD k 0

section Letter

variable {l : Letter} {image image' : Image} {a b : Nat}

theorem Letter.Fits.length_header (h : l.Fits) :
    l.header.length.toNat = headerSize + l.mailHdr.length.toNat := by
  have hsize := h.size
  unfold maxMailSize maxPacketSize maxWireSize headerSize at hsize
  unfold Letter.header headerSize
  simp only [BitVec.toNat_add, BitVec.toNat_ofNat]
  omega

theorem Letter.Fits.length_ne_zero (h : l.Fits) : l.header.length ≠ 0 := by
  intro hzero
  have hlen := h.length_header
  rw [hzero] at hlen
  have hnone : (0 : Word).toNat = 0 := rfl
  unfold headerSize at hlen
  omega

/-- A copy of the packet's data carries the message. -/
theorem Carries.bcopy (h : Carries image' b l) (hl : l.Fits) :
    Carries (bcopy image' b image a l.header.length.toNat) a l := by
  have hlen := hl.length_header
  refine ⟨?_, fun k hk => ?_⟩
  · rw [← h.header]
    apply MailHeader.read_congr
    intro k hk
    rw [bcopy_eq, if_pos (by omega), Nat.add_sub_cancel_left]
  · rw [bcopy_eq, if_pos (by omega), ← h.data k hk]
    congr 1
    omega

/-- The data that is read where a message is carried. -/
theorem Carries.toList_eq (h : Carries image a l) (hl : l.Fits) :
    toList (fun k => image (a + headerSize + k)) l.mailHdr.length.toNat = l.data := by
  apply List.ext_getElem
  · rw [length_toList, hl.data]
  · intro k h₁ h₂
    rw [length_toList] at h₁
    have hbyte := h.data k h₁
    rw [List.getD_eq_getElem?_getD, List.getElem?_eq_getElem h₂, Option.getD_some] at hbyte
    simp only [toList, List.getElem_map, List.getElem_range]
    exact hbyte

end Letter

/-- What a call of `Send` puts on the wire. -/
theorem wire_spec {mailHdr : MailHeader} {data : Image}
    (hsize : mailHdr.length.toNat ≤ maxMailSize) (junk junk' : Image) {addr toAddr : Word} {l : Letter}
    (hl : l = ⟨addr, toAddr, mailHdr, toList data mailHdr.length.toNat⟩) :
    l.Fits ∧ PacketHeader.read (wire l.header mailHdr data junk junk') 0 = l.header ∧
      Carries (wire l.header mailHdr data junk junk') headerSize l := by
  subst hl
  have hfits : Letter.Fits ⟨addr, toAddr, mailHdr, toList data mailHdr.length.toNat⟩ :=
    ⟨length_toList _ _, hsize⟩
  have hlen := hfits.length_header
  refine ⟨hfits, ?_, ?_⟩
  · unfold wire
    rw [← PacketHeader.read_write (Letter.header _) junk' 0]
    apply PacketHeader.read_congr
    intro k hk
    rw [bcopy_eq, if_neg (by omega), PacketHeader.read_write]
  · unfold wire
    refine Carries.bcopy ⟨?_, ?_⟩ hfits
    · rw [← MailHeader.read_write mailHdr junk 0]
      apply MailHeader.read_congr
      intro k hk
      rw [bcopy_eq, if_neg (by omega), MailHeader.read_write]
    · intro k hk
      rw [bcopy_eq, if_pos (by simp only at hk; omega), getD_toList hk]
      congr 1
      omega

/-! ### The invariant -/

/-- The message with the given number was sent to the machine. -/
structure SentTo (sent : List Letter) (addr : Word) (id : Nat) (l : Letter) : Prop where
  sent : sent[id]? = some l
  toAddr : l.toAddr = addr
  fits : l.Fits

namespace Office

/-- The number of the message that the worker holds. -/
def workerIds (o : Office) : List Nat :=
  match o.worker with
  | .holding _ id => [id]
  | _ => []

/-- The number of the message in the inbox. -/
def inboxIds (o : Office) : List Nat := if o.inHdr.length ≠ 0 then [o.inId] else []

/-- The numbers of all messages that have come to the machine, the first ones first. -/
def ids (o : Office) : List Nat :=
  o.put.map Prod.snd ++ o.workerIds ++ o.inboxIds ++ o.socket.map Datagram.id

end Office

structure OfficeInv (sent : List Letter) (addr : Word) (o : Office) : Prop where
  socket : ∀ d ∈ o.socket, ∃ l, SentTo sent addr d.id l ∧
    PacketHeader.read d.bytes 0 = l.header ∧ Carries d.bytes headerSize l
  inbox : o.inHdr.length ≠ 0 → ∃ l, SentTo sent addr o.inId l ∧ o.inHdr = l.header ∧
    Carries o.inbox 0 l
  worker : ∀ {pktHdr id}, o.worker = .holding pktHdr id → ∃ l, SentTo sent addr id l ∧
    pktHdr = l.header ∧ Carries o.buffer 0 l
  put : ∀ p ∈ o.put, ∃ l, SentTo sent addr p.2 l ∧ p.1 = ⟨l.header, l.mailHdr, l.data⟩
  kept : ∀ box, o.received box = o.put.filter fun p => p.1.mailHdr.toBox.toInt = box
  order : o.ids.Pairwise (· < ·)
  bound : ∀ id ∈ o.ids, id < sent.length
  /-- The semaphore counts the packet in the inbox until the worker has seen it. -/
  available : o.messageAvailable + (if o.worker = .awake then 1 else 0) =
    if o.inHdr.length ≠ 0 then 1 else 0

def Inv (s : State) : Prop := ∀ addr o, s.office addr = some o → OfficeInv s.sent addr o

section Steps

variable {sent : List Letter} {addr : Word} {o o' : Office}

theorem SentTo.append {id : Nat} {l : Letter} (h : SentTo sent addr id l) (more : List Letter) :
    SentTo (sent ++ more) addr id l := by
  obtain ⟨hlt, -⟩ := List.getElem?_eq_some_iff.mp h.sent
  refine ⟨?_, h.toAddr, h.fits⟩
  rw [List.getElem?_append_left hlt]
  exact h.sent

namespace OfficeInv

theorem append (h : OfficeInv sent addr o) (more : List Letter) :
    OfficeInv (sent ++ more) addr o where
  socket d hd := by
    obtain ⟨l, hl, hrest⟩ := h.socket d hd
    exact ⟨l, hl.append more, hrest⟩
  inbox hne := by
    obtain ⟨l, hl, hrest⟩ := h.inbox hne
    exact ⟨l, hl.append more, hrest⟩
  worker hw := by
    obtain ⟨l, hl, hrest⟩ := h.worker hw
    exact ⟨l, hl.append more, hrest⟩
  put p hp := by
    obtain ⟨l, hl, hrest⟩ := h.put p hp
    exact ⟨l, hl.append more, hrest⟩
  kept := h.kept
  order := h.order
  bound id hid := by
    rw [List.length_append]
    exact Nat.lt_add_right _ (h.bound id hid)
  available := h.available

theorem abort (h : OfficeInv sent addr o) : OfficeInv sent addr o.abort :=
  ⟨h.socket, h.inbox, h.worker, h.put, h.kept, h.order, h.bound, h.available⟩

theorem new (numBoxes : Int) (inHdr : PacketHeader) (inbox buffer : Image) :
    OfficeInv sent addr (.new numBoxes inHdr inbox buffer) where
  socket d hd := by cases hd
  inbox hne := absurd rfl hne
  worker hw := by cases hw
  put p hp := by cases hp
  kept box := rfl
  order := List.Pairwise.nil
  bound id hid := by cases hid
  available := rfl

/-- A packet is put into the socket. -/
theorem enqueue (h : OfficeInv sent addr o) {d : Datagram} {l : Letter} (hid : d.id = sent.length)
    (hto : l.toAddr = addr) (hfits : l.Fits) (hread : PacketHeader.read d.bytes 0 = l.header)
    (hcarries : Carries d.bytes headerSize l) :
    OfficeInv (sent ++ [l]) addr { o with socket := o.socket ++ [d] } := by
  have hold := h.append [l]
  have hids : Office.ids { o with socket := o.socket ++ [d] } = o.ids ++ [d.id] := by
    unfold Office.ids
    rw [List.map_append, ← List.append_assoc]
    rfl
  refine ⟨fun d' hd' => ?_, hold.inbox, hold.worker, hold.put, h.kept, ?_, fun id hmem => ?_,
    hold.available⟩
  · rcases List.mem_append.mp hd' with hd' | hd'
    · exact hold.socket d' hd'
    · rw [List.mem_singleton.mp hd']
      refine ⟨l, ⟨?_, hto, hfits⟩, hread, hcarries⟩
      rw [hid, List.getElem?_concat_length]
  · rw [hids, List.pairwise_append]
    refine ⟨h.order, List.pairwise_singleton _ _, fun i hi j hj => ?_⟩
    rw [List.mem_singleton.mp hj, hid]
    exact h.bound i hi
  · rw [hids] at hmem
    rw [List.length_append, List.length_singleton]
    rcases List.mem_append.mp hmem with hmem | hmem
    · have hlt := h.bound id hmem
      omega
    · rw [List.mem_singleton.mp hmem, hid]
      omega

/-- The device reads a packet from the socket. -/
theorem checkPktAvail (h : OfficeInv sent addr o) : OfficeInv sent addr (o.checkPktAvail addr) := by
  unfold Office.checkPktAvail
  split
  · exact h
  rename_i hempty
  cases hsocket : o.socket with
  | nil => exact h
  | cons d socket =>
    obtain ⟨l, hl, hread, hcarries⟩ := h.socket d (hsocket ▸ List.mem_cons_self)
    simp only [hread]
    split
    swap
    · exact h.abort
    have hne := hl.fits.length_ne_zero
    have havailable := h.available
    rw [if_neg hempty] at havailable
    have hids : Office.ids { o with
        socket := socket, inHdr := l.header, inId := d.id
        inbox := bcopy d.bytes headerSize o.inbox 0 l.header.length.toNat
        messageAvailable := o.messageAvailable + 1 } = o.ids := by
      unfold Office.ids Office.inboxIds Office.workerIds
      simp only
      rw [if_pos hne, if_neg hempty, hsocket]
      simp
    refine ⟨fun d' hd' => h.socket d' (hsocket ▸ List.mem_cons_of_mem _ hd'),
      fun _ => ⟨l, hl, rfl, hcarries.bcopy hl.fits⟩, h.worker, h.put, h.kept, ?_, ?_, ?_⟩
    · rw [hids]
      exact h.order
    · rw [hids]
      exact h.bound
    · simp only
      rw [if_pos hne]
      omega

/-- The worker has taken a packet from the semaphore: there is one in the inbox. -/
theorem buffered (h : OfficeInv sent addr o) (hawake : o.worker = .awake) :
    o.inHdr.length ≠ 0 ∧ o.messageAvailable = 0 := by
  have havailable := h.available
  rw [if_pos hawake] at havailable
  split at havailable
  · rename_i hne
    exact ⟨hne, by omega⟩
  · omega

theorem wake (h : OfficeInv sent addr o) (hstep : o.wake = some o') : OfficeInv sent addr o' := by
  obtain ⟨⟨hwaiting, hpos⟩, heq⟩ := Option.ite_none_right_eq_some.mp hstep
  obtain rfl := Option.some.inj heq
  have havailable := h.available
  rw [if_neg (by rw [hwaiting]; simp)] at havailable
  have hids : Office.ids { o with
      worker := .awake, messageAvailable := o.messageAvailable - 1 } = o.ids := by
    unfold Office.ids Office.workerIds
    rw [hwaiting]
    rfl
  refine ⟨h.socket, h.inbox, fun hw => (by cases hw), h.put, h.kept, ?_, ?_, ?_⟩
  · rw [hids]
    exact h.order
  · rw [hids]
    exact h.bound
  · simp only
    rw [if_pos trivial, ← havailable]
    omega

/-- The worker takes the packet out of the inbox. -/
theorem receive (h : OfficeInv sent addr o) (hstep : o.receive = some o') :
    OfficeInv sent addr o' := by
  obtain ⟨hawake, heq⟩ := Option.ite_none_right_eq_some.mp hstep
  obtain rfl := Option.some.inj heq
  obtain ⟨hne, hnone⟩ := h.buffered hawake
  obtain ⟨l, hl, hhdr, hcarries⟩ := h.inbox hne
  have hids : Office.ids { o with
      inHdr := { o.inHdr with length := 0 }
      buffer := if o.inHdr.length ≠ 0 then bcopy o.inbox 0 o.buffer 0 o.inHdr.length.toNat
        else o.buffer
      worker := .holding o.inHdr o.inId } = o.ids := by
    unfold Office.ids Office.inboxIds Office.workerIds
    have hne' : ¬ o.inHdr.length = 0#32 := hne
    rw [hawake]
    simp [hne']
  refine ⟨h.socket, fun hnonzero => absurd rfl hnonzero, fun {pktHdr id} hw => ?_, h.put, h.kept,
    ?_, ?_, ?_⟩
  · obtain ⟨rfl, rfl⟩ := Worker.holding.inj hw
    refine ⟨l, hl, hhdr, ?_⟩
    simp only
    rw [if_pos hne, hhdr]
    exact hcarries.bcopy hl.fits
  · rw [hids]
    exact h.order
  · rw [hids]
    exact h.bound
  · simp [hnone]

/-- The worker puts the message into a mailbox. -/
theorem deliver (h : OfficeInv sent addr o) (hstep : o.deliver = some o') :
    OfficeInv sent addr o' := by
  unfold Office.deliver at hstep
  split at hstep
  swap
  · cases hstep
  rename_i pktHdr id hworker
  obtain ⟨l, hl, hhdr, hcarries⟩ := h.worker hworker
  have hdata := hcarries.toList_eq hl.fits
  rw [Nat.zero_add] at hdata
  simp only [hcarries.header, hdata] at hstep
  split at hstep
  swap
  · obtain rfl := Option.some.inj hstep
    exact h.abort
  obtain rfl := Option.some.inj hstep
  have havailable := h.available
  rw [if_neg (by rw [hworker]; simp)] at havailable
  have hids : ∀ boxes, Office.ids { o with
      boxes := boxes, put := o.put ++ [(⟨pktHdr, l.mailHdr, l.data⟩, id)], worker := .waiting } =
      o.ids := by
    intro boxes
    unfold Office.ids Office.workerIds
    rw [hworker]
    simp [Office.inboxIds]
  refine ⟨h.socket, h.inbox, fun hw => (by cases hw), fun p hp => ?_, fun box => ?_, ?_, ?_,
    havailable⟩
  · rcases List.mem_append.mp hp with hp | hp
    · exact h.put p hp
    · rw [List.mem_singleton.mp hp]
      exact ⟨l, hl, by rw [hhdr]⟩
  · have hkept := h.kept box
    unfold Office.received at hkept ⊢
    rw [List.filter_append, ← hkept]
    by_cases hbox : l.mailHdr.toBox.toInt = box
    · subst hbox
      simp
    · simp [hbox, Function.update_of_ne (Ne.symm hbox)]
  · rw [hids]
    exact h.order
  · rw [hids]
    exact h.bound

/-- What is taken out of a mailbox stays in what it has received. -/
theorem get (h : OfficeInv sent addr o) (box : Int) : OfficeInv sent addr (o.get box) := by
  unfold Office.get
  split
  swap
  · exact h.abort
  split
  · exact h.abort
  rename_i mail mails hboxes
  refine ⟨h.socket, h.inbox, h.worker, h.put, fun box' => ?_, h.order, h.bound, h.available⟩
  rw [← h.kept box']
  unfold Office.received
  by_cases heq : box' = box
  · subst heq
    simp [hboxes]
  · simp [Function.update_of_ne heq]

theorem sendDone (h : OfficeInv sent addr o) (hstep : o.sendDone = some o') :
    OfficeInv sent addr o' := by
  obtain ⟨-, heq⟩ := Option.ite_none_right_eq_some.mp hstep
  obtain rfl := Option.some.inj heq
  exact ⟨h.socket, h.inbox, h.worker, h.put, h.kept, h.order, h.bound, h.available⟩

theorem sent_step (h : OfficeInv sent addr o) (hstep : o.sent = some o') :
    OfficeInv sent addr o' := by
  obtain ⟨-, heq⟩ := Option.ite_none_right_eq_some.mp hstep
  obtain rfl := Option.some.inj heq
  exact ⟨h.socket, h.inbox, h.worker, h.put, h.kept, h.order, h.bound, h.available⟩

end OfficeInv

/-! ### All machines -/

variable {s t : State}

/-- A step of one machine that sends nothing. -/
theorem Inv.setOffice (h : Inv s) (ho : OfficeInv s.sent addr o) : Inv (s.setOffice addr o) := by
  intro addr' o' hoffice
  unfold State.setOffice at hoffice
  simp only at hoffice
  by_cases heq : addr' = addr
  · subst heq
    rw [Function.update_self] at hoffice
    exact Option.some.inj hoffice ▸ ho
  · rw [Function.update_of_ne heq] at hoffice
    exact h addr' o' hoffice

theorem Inv.append (h : Inv s) (more : List Letter) : Inv { s with sent := s.sent ++ more } :=
  fun addr o hoffice => (h addr o hoffice).append more

/-- A call of `Send`. -/
theorem Inv.send (h : Inv s) (hoffice : s.office addr = some o) (pktHdr : PacketHeader)
    (mailHdr : MailHeader) (data : Image) (lost : Bool) (junk junk' : Image) :
    Inv (s.send addr o pktHdr mailHdr data lost junk junk') := by
  have ho := h addr o hoffice
  unfold State.send
  split
  swap
  · exact h.setOffice ho.abort
  rename_i hcheck
  simp only
  split
  swap
  · exact h.setOffice ho.abort
  generalize hl : Letter.mk addr pktHdr.toAddr mailHdr (toList data mailHdr.length.toNat) = l
  obtain ⟨hfits, hread, hcarries⟩ := wire_spec hcheck.1 junk junk' hl.symm
  have hto : l.toAddr = pktHdr.toAddr := hl ▸ rfl
  have hheader : l.header =
      ⟨pktHdr.toAddr, addr, mailHdr.length + BitVec.ofNat 32 headerSize⟩ := hl ▸ rfl
  have hwaits : OfficeInv s.sent addr
      { o with sendDones := o.sendDones + 1, senders := o.senders + 1 } :=
    ⟨ho.socket, ho.inbox, ho.worker, ho.put, ho.kept, ho.order, ho.bound, ho.available⟩
  have hbefore : Inv (s.setOffice addr
      { o with sendDones := o.sendDones + 1, senders := o.senders + 1 }) := h.setOffice hwaits
  have hafter := hbefore.append [l]
  split
  · exact hafter
  · split
    · exact hafter.setOffice (ho.append [l]).abort
    · rename_i receiver hreceiver
      split
      · exact hafter.setOffice (ho.append [l]).abort
      · -- the receiver may be the sender itself
        refine hafter.setOffice ((hbefore _ receiver hreceiver).enqueue rfl hto hfits ?_ ?_)
        · rw [← hheader]
          exact hread
        · rw [← hheader]
          exact hcarries

theorem Inv.step {e : Event} (h : Inv s) (hstep : step s e = some t) : Inv t := by
  unfold Network.step at hstep
  split at hstep
  · cases hstep
  rename_i o hoffice
  split at hstep
  · cases hstep
  have ho := h _ o hoffice
  cases e with
  | send addr pktHdr mailHdr data lost junk junk' =>
    obtain rfl := Option.some.inj hstep
    exact h.send hoffice pktHdr mailHdr data lost junk junk'
  | sendDone addr =>
    obtain ⟨o', ho', rfl⟩ := Option.map_eq_some_iff.mp hstep
    exact h.setOffice (ho.sendDone ho')
  | sent addr =>
    obtain ⟨o', ho', rfl⟩ := Option.map_eq_some_iff.mp hstep
    exact h.setOffice (ho.sent_step ho')
  | checkPktAvail addr =>
    obtain rfl := Option.some.inj hstep
    exact h.setOffice ho.checkPktAvail
  | wake addr =>
    obtain ⟨o', ho', rfl⟩ := Option.map_eq_some_iff.mp hstep
    exact h.setOffice (ho.wake ho')
  | receive addr =>
    obtain ⟨o', ho', rfl⟩ := Option.map_eq_some_iff.mp hstep
    exact h.setOffice (ho.receive ho')
  | deliver addr =>
    obtain ⟨o', ho', rfl⟩ := Option.map_eq_some_iff.mp hstep
    exact h.setOffice (ho.deliver ho')
  | get addr box =>
    obtain rfl := Option.some.inj hstep
    exact h.setOffice (ho.get box)

theorem inv_start (office : Word → Option (Int × PacketHeader × Image × Image)) :
    Inv (start office) := by
  intro addr o hoffice
  obtain ⟨p, -, rfl⟩ := Option.map_eq_some_iff.mp hoffice
  exact OfficeInv.new p.1 p.2.1 p.2.2.1 p.2.2.2

end Steps

/-! ### What it means for the mail -/

/-- Elements with increasing indices are a part of a list. -/
theorem sublist_of_indices {α β : Type*} {l : List α} {q : List β} {index : β → Nat} {f : β → α}
    (hq : q.Pairwise fun b b' => index b < index b') (h : ∀ b ∈ q, l[index b]? = some (f b)) {j : Nat}
    (hj : ∀ b ∈ q, j ≤ index b) : List.Sublist (q.map f) (l.drop j) := by
  induction q generalizing j with
  | nil => exact List.nil_sublist _
  | cons b q ih =>
    obtain ⟨hb, hq⟩ := List.pairwise_cons.mp hq
    have hrest := ih hq (fun b' hb' => h b' (List.mem_cons_of_mem _ hb'))
      (j := index b + 1) fun b' hb' => hb b' hb'
    obtain ⟨hlt, hget⟩ := List.getElem?_eq_some_iff.mp (h b List.mem_cons_self)
    have hdrop : l.drop (index b) = f b :: l.drop (index b + 1) := by
      rw [List.drop_eq_getElem_cons hlt, hget]
    calc List.Sublist (f b :: q.map f) (f b :: l.drop (index b + 1)) := hrest.cons_cons _
      List.Sublist _ (l.drop j) := by
        rw [← hdrop]
        exact List.drop_sublist_drop_left l (hj b List.mem_cons_self)

/-- The message that a mail was made of. -/
def Mail.letter (m : Mail) : Letter where
  sender := m.pktHdr.fromAddr
  toAddr := m.pktHdr.toAddr
  mailHdr := m.mailHdr
  data := m.data

section Sound

variable {s : State} {addr : Word} {o : Office}

theorem OfficeInv.put_letter (h : OfficeInv s.sent addr o) {p : Mail × Nat} (hp : p ∈ o.put) :
    SentTo s.sent addr p.2 p.1.letter := by
  obtain ⟨l, hl, heq⟩ := h.put p hp
  have hletter : p.1.letter = l := by rw [heq]; rfl
  rwa [hletter]

theorem OfficeInv.mem_received (h : OfficeInv s.sent addr o) {box : Int} {p : Mail × Nat}
    (hp : p ∈ o.received box) :
    SentTo s.sent addr p.2 p.1.letter ∧ p.1.mailHdr.toBox.toInt = box := by
  rw [h.kept box] at hp
  obtain ⟨hput, hbox⟩ := List.mem_filter.mp hp
  exact ⟨h.put_letter hput, of_decide_eq_true hbox⟩

theorem OfficeInv.once (h : OfficeInv s.sent addr o) (box : Int) :
    (o.received box).Pairwise fun p p' => p.2 < p'.2 := by
  have hids := h.order
  unfold Office.ids at hids
  rw [List.append_assoc, List.append_assoc, List.pairwise_append, List.pairwise_map] at hids
  rw [h.kept box]
  exact hids.1.filter _

/-- Two mailboxes have no message in common: it says itself which of them it is for. -/
theorem OfficeInv.apart (h : OfficeInv s.sent addr o) {box box' : Int} {p p' : Mail × Nat}
    (hp : p ∈ o.received box) (hp' : p' ∈ o.received box') (hid : p.2 = p'.2) : box = box' := by
  obtain ⟨hsent, hbox⟩ := h.mem_received hp
  obtain ⟨hsent', hbox'⟩ := h.mem_received hp'
  have hletter : p.1.letter = p'.1.letter := by
    have hsame := hsent'.sent
    rw [← hid, hsent.sent] at hsame
    exact Option.some.inj hsame
  calc box = p.1.letter.mailHdr.toBox.toInt := hbox.symm
    _ = p'.1.letter.mailHdr.toBox.toInt := by rw [hletter]
    _ = box' := hbox'

theorem OfficeInv.sublist (h : OfficeInv s.sent addr o) (box : Int) (a : Word) :
    List.Sublist (s.mailsFrom (o.received box) a) (s.lettersTo addr box a) := by
  let q := (o.received box).filter fun p => (s.sent[p.2]?).map Letter.sender = some a
  have hreceived : ∀ p ∈ q, p ∈ o.received box := fun p hp => (List.mem_filter.mp hp).1
  have hsub : List.Sublist (q.map fun p => p.1.letter) s.sent := by
    have hindices := sublist_of_indices (j := 0) ((h.once box).filter _)
      (fun p hp => (h.mem_received (hreceived p hp)).1.sent) fun _ _ => Nat.zero_le _
    rwa [List.drop_zero] at hindices
  have hall : (q.map fun p => p.1.letter).filter (fun l =>
      l.sender = a ∧ l.toAddr = addr ∧ l.mailHdr.toBox.toInt = box) =
      q.map fun p => p.1.letter := by
    apply List.filter_eq_self.mpr
    intro l hl
    obtain ⟨p, hp, rfl⟩ := List.mem_map.mp hl
    have hsender := of_decide_eq_true (List.mem_filter.mp hp).2
    obtain ⟨hletter, hbox⟩ := h.mem_received (hreceived p hp)
    rw [hletter.sent] at hsender
    exact decide_eq_true ⟨Option.some.inj hsender, hletter.toAddr, hbox⟩
  have hfiltered := (hsub.filter fun l =>
    decide (l.sender = a ∧ l.toAddr = addr ∧ l.mailHdr.toBox.toInt = box)).map Letter.content
  rw [hall, List.map_map] at hfiltered
  exact hfiltered

theorem Inv.sound (h : Inv s) : Sound s where
  kept hoffice box := (h _ _ hoffice).kept box
  box hoffice box p hp := by
    obtain ⟨hletter, hbox⟩ := (h _ _ hoffice).mem_received hp
    exact ⟨hletter.toAddr, hbox⟩
  sender hoffice box p hp := by
    rw [((h _ _ hoffice).mem_received hp).1.sent]
    rfl
  length hoffice box p hp := ((h _ _ hoffice).mem_received hp).1.fits.data
  once hoffice box := (h _ _ hoffice).once box
  apart hoffice _ _ p hp p' hp' hid := (h _ _ hoffice).apart hp hp' hid
  order hoffice box a := (h _ _ hoffice).sublist box a
  buffered hoffice hawake := ((h _ _ hoffice).buffered hawake).1

end Sound

/-- In every run of post offices on any machines, the mail in the mailboxes is in order and not
corrupted. -/
theorem mail_ordered (office : Word → Option (Int × PacketHeader × Image × Image))
    (events : List Event) : AllStates step Sound (start office) events :=
  (allStates_of_invariant (fun _ _ _ => Inv.step) (inv_start office) events).mono fun _ h => h.sound

-- two bytes from machine 0 arrive in mailbox 3 of machine 1
example : ((run step
      (start fun addr => if addr < 2 then some (10, ⟨0, 0, 0⟩, fun _ => 0, fun _ => 0) else none)
      [.send 0 ⟨1, 7, 9⟩ ⟨3, 4, 2⟩ (fun k => BitVec.ofNat 8 (k + 65)) false (fun _ => 1) (fun _ => 2),
        .checkPktAvail 1, .wake 1, .receive 1, .deliver 1]).bind fun s => s.office 1).map
      (fun o => o.boxes 3) = some [(⟨⟨1, 0, 14⟩, ⟨3, 4, 2⟩, [65, 66]⟩, 0)] := by
  decide

end Nachos.Network
