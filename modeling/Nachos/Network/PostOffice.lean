import Nachos.Lib.Bytes
import Nachos.Lib.Runs
import Nachos.Machine.Memory

/-!
# Post offices

`PostOffice` (network/post.cc) and the device `Network` under it (machine/network.cc), on any
number of machines that are connected by the host's sockets. A message gets two headers: `Send`
puts a mail header in front of the data and the device puts a packet header in front of that.
The device of the receiver has room for one packet; the postal worker takes it from there and
puts it into a mailbox.

The steps are what happens between two points at which Nachos may switch threads or handle an
interrupt, or less. `Lock::Acquire` and `Lock::Release` are empty in threads/synch.cc, so the lock
of `Send` does not appear: several threads of one machine may wait in `Send`.

The number `id` of a message is the place of its `Send` among all calls of `Send`. It is not part of
the program, and no step looks at it; the lists `taken` and `put` are not part of the program either.
-/

namespace Nachos.Network

open Bytes

/-! ### Packets -/

def maxWireSize : Nat := 64

/-- The size of both headers. -/
def headerSize : Nat := 12

def maxPacketSize : Nat := maxWireSize - headerSize
def maxMailSize : Nat := maxPacketSize - headerSize

/-- An object of three words in memory. -/
def writeWords (image : Image) (a : Nat) (w₀ w₁ w₂ : Word) : Image :=
  store (store (store image a 4 w₀) (a + 4) 4 w₁) (a + 8) 4 w₂

/-- `bcopy` of `n` bytes. -/
def bcopy (image' : Image) (b : Nat) (image : Image) (a n : Nat) : Image :=
  splice image a (toList (fun k => image' (b + k)) n)

/-- `PacketHeader`, with the members `to` and `from`. -/
structure PacketHeader where
  toAddr : Word
  fromAddr : Word
  length : Word
  deriving DecidableEq

/-- `MailHeader`, with the members `to` and `from`. -/
structure MailHeader where
  toBox : Word
  fromBox : Word
  length : Word
  deriving DecidableEq

def PacketHeader.write (h : PacketHeader) (image : Image) (a : Nat) : Image :=
  writeWords image a h.toAddr h.fromAddr h.length

def PacketHeader.read (image : Image) (a : Nat) : PacketHeader where
  toAddr := load image a 4
  fromAddr := load image (a + 4) 4
  length := load image (a + 8) 4

def MailHeader.write (h : MailHeader) (image : Image) (a : Nat) : Image :=
  writeWords image a h.toBox h.fromBox h.length

def MailHeader.read (image : Image) (a : Nat) : MailHeader where
  toBox := load image a 4
  fromBox := load image (a + 4) 4
  length := load image (a + 8) 4

/-- A packet in a socket: `MaxWireSize` bytes. -/
structure Datagram where
  bytes : Image
  id : Nat

/-- `Mail`; the rest of the array `data` is not initialised. -/
structure Mail where
  pktHdr : PacketHeader
  mailHdr : MailHeader
  data : List Byte
  deriving DecidableEq

/-! ### Machines -/

/-- Where the postal worker is: in `messageAvailable->P()`, after it, or after `network->Receive` with
the header that was returned. -/
inductive Worker
  | waiting
  | awake
  | holding (pktHdr : PacketHeader) (id : Nat)
  deriving DecidableEq

/-- A `PostOffice` and its `Network`. -/
structure Office where
  numBoxes : Int
  messageAvailable : Nat
  messageSent : Nat
  /-- The threads that wait for `messageSent`. -/
  senders : Nat
  /-- The interrupts `NetworkSendDone` that are scheduled. -/
  sendDones : Nat
  sendBusy : Bool
  inHdr : PacketHeader
  inbox : Image
  /-- The number of the packet in `inbox`. -/
  inId : Nat
  worker : Worker
  /-- The buffer of the postal worker. -/
  buffer : Image
  /-- The lists `messages` of the mailboxes, with the number of each message. -/
  boxes : Int → List (Mail × Nat)
  /-- What calls of `PostOffice::Receive` got from each mailbox, the first message first. -/
  taken : Int → List (Mail × Nat)
  /-- What calls of `MailBox::Put` were made with, whichever the mailbox. -/
  put : List (Mail × Nat)
  socket : List Datagram
  /-- An ASSERT failed. -/
  stopped : Bool

namespace Office

/-- `PostOffice::PostOffice`. The memory of `inHdr`, of `inbox` and of the worker's buffer is not
initialised; only the length in the header is set. -/
def new (numBoxes : Int) (inHdr : PacketHeader) (inbox buffer : Image) : Office where
  numBoxes := numBoxes
  messageAvailable := 0
  messageSent := 0
  senders := 0
  sendDones := 0
  sendBusy := false
  inHdr := { inHdr with length := 0 }
  inbox := inbox
  inId := 0
  worker := .waiting
  buffer := buffer
  boxes := fun _ => []
  taken := fun _ => []
  put := []
  socket := []
  stopped := false

/-- A failed ASSERT. -/
def abort (o : Office) : Office := { o with stopped := true }

variable (o : Office)

/-- `Network::CheckPktAvail`, with `PostOffice::IncomingPacket`. -/
def checkPktAvail (ident : Word) : Office :=
  if o.inHdr.length ≠ 0 then o
  else
    match o.socket with
    | [] => o
    | d :: socket =>
      let inHdr := PacketHeader.read d.bytes 0
      if inHdr.toAddr = ident ∧ inHdr.length.toNat ≤ maxPacketSize then
        { o with
          socket := socket
          inHdr := inHdr
          inbox := bcopy d.bytes headerSize o.inbox 0 inHdr.length.toNat
          inId := d.id
          messageAvailable := o.messageAvailable + 1 }
      else o.abort

/-- `messageAvailable->P()` of the postal worker. -/
def wake : Option Office :=
  if o.worker = .waiting ∧ 0 < o.messageAvailable then
    some { o with worker := .awake, messageAvailable := o.messageAvailable - 1 }
  else none

/-- `Network::Receive`, called by the postal worker. -/
def receive : Option Office :=
  if o.worker = .awake then
    let hdr := o.inHdr
    some { o with
      inHdr := { o.inHdr with length := 0 }
      buffer := if hdr.length ≠ 0 then bcopy o.inbox 0 o.buffer 0 hdr.length.toNat else o.buffer
      worker := .holding hdr o.inId }
  else none

/-- The rest of the loop of the postal worker, with `MailBox::Put`. -/
def deliver : Option Office :=
  match o.worker with
  | .holding pktHdr id =>
    let mailHdr := MailHeader.read o.buffer 0
    if 0 ≤ mailHdr.toBox.toInt ∧ mailHdr.toBox.toInt < o.numBoxes ∧
        mailHdr.length.toNat ≤ maxMailSize then
      let mail : Mail :=
        { pktHdr, mailHdr, data := toList (fun k => o.buffer (headerSize + k)) mailHdr.length.toNat }
      some { o with
        boxes := Function.update o.boxes mailHdr.toBox.toInt
          (o.boxes mailHdr.toBox.toInt ++ [(mail, id)])
        put := o.put ++ [(mail, id)]
        worker := .waiting }
    else some o.abort
  | _ => none

/-- `Network::SendDone`, with `PostOffice::PacketSent`. -/
def sendDone : Option Office :=
  if 0 < o.sendDones then
    some { o with
      sendDones := o.sendDones - 1, sendBusy := false, messageSent := o.messageSent + 1 }
  else none

/-- A thread comes back from `messageSent->P()` and leaves `Send`. -/
def sent : Option Office :=
  if 0 < o.senders ∧ 0 < o.messageSent then
    some { o with senders := o.senders - 1, messageSent := o.messageSent - 1 }
  else none

/-- `PostOffice::Receive`. To wait for a message fails an ASSERT in `Condition::Wait`. -/
def get (box : Int) : Office :=
  if 0 ≤ box ∧ box < o.numBoxes then
    match o.boxes box with
    | [] => o.abort
    | mail :: mails =>
      { o with
        boxes := Function.update o.boxes box mails
        taken := Function.update o.taken box (o.taken box ++ [mail]) }
  else o.abort

/-- What has come into a mailbox: what calls of `Receive` got from it, and what is still there. -/
def received (box : Int) : List (Mail × Nat) := o.taken box ++ o.boxes box

end Office

/-! ### The network -/

/-- A call of `Send`: the machine it was made on, the machine and the mail header it was made with,
and the data. -/
structure Letter where
  sender : Word
  toAddr : Word
  mailHdr : MailHeader
  data : List Byte
  deriving DecidableEq

/-- The machines, by their addresses, and the calls of `Send` so far. -/
structure State where
  office : Word → Option Office
  sent : List Letter

def State.setOffice (s : State) (addr : Word) (o : Office) : State :=
  { s with office := Function.update s.office addr (some o) }

/-- What is on the wire: `PostOffice::Send` concatenates the mail header and the data in a buffer, and
`Network::Send` the packet header and the buffer. `junk` is what the two buffers hold. -/
def wire (hdr : PacketHeader) (mailHdr : MailHeader) (data : Image) (junk junk' : Image) : Image :=
  let buffer := bcopy data 0 (mailHdr.write junk 0) headerSize mailHdr.length.toNat
  bcopy buffer 0 (hdr.write junk' 0) headerSize hdr.length.toNat

/-- `PostOffice::Send` up to `messageSent->P()`, on the machine `addr`. The packet may be lost; there
is no socket with the name of a machine that does not run. -/
def State.send (s : State) (addr : Word) (o : Office) (pktHdr : PacketHeader) (mailHdr : MailHeader)
    (data : Image) (lost : Bool) (junk junk' : Image) : State :=
  if mailHdr.length.toNat ≤ maxMailSize ∧ 0 ≤ mailHdr.toBox.toInt ∧
      mailHdr.toBox.toInt < o.numBoxes then
    let hdr := { pktHdr with fromAddr := addr, length := mailHdr.length + BitVec.ofNat 32 headerSize }
    if o.sendBusy = false ∧ 0 < hdr.length.toNat ∧ hdr.length.toNat ≤ maxPacketSize ∧
        hdr.fromAddr = addr then
      let letter : Letter :=
        { sender := addr, toAddr := hdr.toAddr, mailHdr, data := toList data mailHdr.length.toNat }
      let s' := { s with sent := s.sent ++ [letter] }.setOffice addr
        { o with sendDones := o.sendDones + 1, senders := o.senders + 1 }
      if lost then s'
      else
        match s'.office hdr.toAddr with
        | none => s'.setOffice addr o.abort
        | some receiver =>
          if receiver.stopped then s'.setOffice addr o.abort
          else s'.setOffice hdr.toAddr { receiver with
            socket := receiver.socket ++ [⟨wire hdr mailHdr data junk junk', s.sent.length⟩] }
    else s.setOffice addr o.abort
  else s.setOffice addr o.abort

/-- What can happen. -/
inductive Event
  | send (addr : Word) (pktHdr : PacketHeader) (mailHdr : MailHeader) (data : Image) (lost : Bool)
      (junk junk' : Image)
  | sendDone (addr : Word)
  | sent (addr : Word)
  | checkPktAvail (addr : Word)
  | wake (addr : Word)
  | receive (addr : Word)
  | deliver (addr : Word)
  | get (addr : Word) (box : Int)

/-- The machine on which it happens. -/
def Event.addr : Event → Word
  | .send addr .. => addr
  | .sendDone addr => addr
  | .sent addr => addr
  | .checkPktAvail addr => addr
  | .wake addr => addr
  | .receive addr => addr
  | .deliver addr => addr
  | .get addr _ => addr

/-- What happens on a machine that runs. -/
def State.perform (s : State) (o : Office) : Event → Option State
  | .send addr pktHdr mailHdr data lost junk junk' =>
    some (s.send addr o pktHdr mailHdr data lost junk junk')
  | .sendDone addr => o.sendDone.map fun o' => s.setOffice addr o'
  | .sent addr => o.sent.map fun o' => s.setOffice addr o'
  | .checkPktAvail addr => some (s.setOffice addr (o.checkPktAvail addr))
  | .wake addr => o.wake.map fun o' => s.setOffice addr o'
  | .receive addr => o.receive.map fun o' => s.setOffice addr o'
  | .deliver addr => o.deliver.map fun o' => s.setOffice addr o'
  | .get addr box => some (s.setOffice addr (o.get box))

def step (s : State) (e : Event) : Option State :=
  match s.office e.addr with
  | none => none
  | some o => if o.stopped then none else s.perform o e

/-- Post offices that have just been made, on the machines with the given addresses. -/
def start (office : Word → Option (Int × PacketHeader × Image × Image)) : State where
  office addr := (office addr).map fun p => .new p.1 p.2.1 p.2.2.1 p.2.2.2
  sent := []

end Nachos.Network
