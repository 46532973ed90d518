import SchemaRegistry.Lib.Reads
import SchemaRegistry.Registry.Views

/-!
The PROXY protocol: the first bytes of a connection may say who the client is, and are believed from
a trusted peer only. What was read beyond the header goes back in front of the stream.
-/

namespace SchemaRegistry.Proxy

open Lib

/-! ### Addresses -/

inductive IpAddr where
  | v4 (a : BitVec 32)
  | v6 (a : BitVec 128)
  deriving DecidableEq, Repr

namespace IpAddr

def width : IpAddr → Nat
  | .v4 _ => 32
  | .v6 _ => 128

/-- `::ffff:a.b.c.d` is the IPv4 address it holds. -/
def unmapped : IpAddr → IpAddr
  | .v4 a => .v4 a
  | .v6 a => if a >>> 32 = 0xffff#128 then .v4 (a.setWidth 32) else .v6 a

end IpAddr

inductive SocketAddr where
  | v4 (ip : BitVec 32) (port : UInt16)
  | v6 (ip : BitVec 128) (port : UInt16) (flowinfo scopeId : UInt32)
  deriving DecidableEq, Repr

namespace SocketAddr

def new : IpAddr → UInt16 → SocketAddr
  | .v4 ip, port => .v4 ip port
  | .v6 ip, port => .v6 ip port 0 0

def ip : SocketAddr → IpAddr
  | .v4 ip _ => .v4 ip
  | .v6 ip _ _ _ => .v6 ip

end SocketAddr

/-! ### The networks that are believed -/

/-- A network: an address and how many of its bits count. -/
structure Network where
  net : IpAddr
  bits : Nat
  bits_le : bits ≤ net.width

/-- The networks whose headers are believed. -/
abbrev Trusted := List Network

def within (ip net : IpAddr) (bits : Nat) : Bool :=
  match ip, net with
  | .v4 a, .v4 n => bits == 0 || (a ^^^ n) >>> (32 - bits) == 0
  | .v6 a, .v6 n => bits == 0 || (a ^^^ n) >>> (128 - bits) == 0
  | _, _ => false

def Trusted.contains (trusted : Trusted) (ip : IpAddr) : Bool :=
  trusted.any fun n => within ip.unmapped n.net n.bits

section Text

-- `IpAddr::from_str` of the standard library.
variable (parseIp : String → Option IpAddr)

def parseNetwork (c : String) : Except String Network :=
  match splitOnce '/' c.toList with
  | none => .error s!"'{c}' is not a CIDR (address/prefix)"
  | some (addr, bits) =>
      match parseIp (String.ofList addr) with
      | none => .error s!"'{c}': '{String.ofList addr}' is not an address"
      | some net =>
          match parseU32 (String.ofList bits) with
          | none => .error s!"'{c}': '{String.ofList bits}' is not a prefix length"
          | some bits =>
              if h : bits.toNat ≤ net.width then .ok ⟨net, bits.toNat, h⟩
              else
                let kind := match net with
                  | .v4 _ => "IPv4"
                  | .v6 _ => "IPv6"
                .error s!"'{c}': /{bits} is too long for {kind}"

def Trusted.parse (cidrs : List String) : Except String Trusted := cidrs.mapM (parseNetwork parseIp)

/-! ### A header of text -/

/-- `str::split_ascii_whitespace`. -/
def splitAsciiWhitespace (s : String) : List String :=
  let blank := fun c => c == ' ' || c == '\t' || c == '\n' || c == '\x0c' || c == '\r'
  ((s.toList.splitOnP blank).filter (· ≠ [])).map String.ofList

/-- `str::parse::<u16>`. -/
def parseU16 (s : String) : Option UInt16 :=
  (parseU32 s).bind fun n => if n.toNat < 2 ^ 16 then some n.toUInt16 else none

/-- `PROXY TCP4 <src> <dst> <sport> <dport>`; anything else names nobody. -/
def parseV1 (line : String) : Option SocketAddr :=
  match splitAsciiWhitespace line with
  | "PROXY" :: family :: src :: _dst :: port :: _ =>
      if family = "TCP4" ∨ family = "TCP6" then do
        let src ← parseIp src
        let port ← parseU16 port
        some (.new src port)
      else none
  | _ => none

end Text

/-! ### The stream behind the header -/

/-- A stream that gives back bytes already read before it reads any more. -/
structure Prefixed where
  inner : Source UInt8
  pre : Bytes
  pos : Nat

namespace Prefixed

def new (inner : Source UInt8) (pre : Bytes) : Prefixed := ⟨inner, pre, 0⟩

/-- One read into a buffer of `k` bytes. -/
def read (p : Prefixed) (k : Nat) : Bytes × Prefixed :=
  if k = 0 then ([], p)
  else if p.pos < p.pre.length then
    let take := min (p.pre.length - p.pos) k
    ((p.pre.drop p.pos).take take, { p with pos := p.pos + take })
  else
    let (out, inner) := p.inner.read k
    (out, { p with inner })

end Prefixed

/-! ### Reading the header -/

inductive Version where
  | one
  | two
  deriving DecidableEq, Repr

def v2Signature : Bytes := [0x0D, 0x0A, 0x0D, 0x0A, 0x00, 0x0D, 0x0A, 0x51, 0x55, 0x49, 0x54, 0x0A]
def v1Start : Bytes := utf8 "PROXY "

/-- v1 headers are at most 107 bytes plus CRLF. -/
def v1Max : Nat := 108

namespace Version

def signature : Version → Bytes
  | .one => v1Start
  | .two => v2Signature

def other : Version → Version
  | .one => .two
  | .two => .one

end Version

structure Expect where
  on : Bool := false
  version : Version := .two

inductive ErrorKind where
  | invalidData
  | unexpectedEof
  deriving DecidableEq, Repr

structure IoError where
  kind : ErrorKind
  message : String
  deriving DecidableEq, Repr

/-- Where the first CRLF starts. -/
def crlfAt : Bytes → Option Nat
  | a :: b :: l => if a = 0x0D ∧ b = 0x0A then some 0 else (crlfAt (b :: l)).map (· + 1)
  | _ => none

/-- Up to and including CRLF, byte by byte. -/
def readLine (buf : Bytes) (stream : Source UInt8) : Except IoError (Bytes × Source UInt8) :=
  if (crlfAt buf).isSome then .ok (buf, stream)
  else if v1Max < buf.length then .error ⟨.invalidData, "PROXY v1 header too long"⟩
  else
    match stream.read 1 with
    | ([], _) => .error ⟨.unexpectedEof, "PROXY v1 header cut short"⟩
    | (b :: _, stream) => readLine (buf ++ [b]) stream
termination_by v1Max + 1 - buf.length
decreasing_by
  simp only [List.length_append, List.length_singleton]
  omega

/-- `AsyncReadExt::read_exact`. -/
def readExact (len : Nat) (stream : Source UInt8) : Except IoError (Bytes × Source UInt8) :=
  let (body, stream) := stream.fill len []
  if body.length < len then .error ⟨.unexpectedEof, "early eof"⟩ else .ok (body, stream)

/-- The client of a v2 header: version 2 and the command PROXY, over IPv4 or IPv6. -/
def clientV2 (verCmd family : UInt8) (body : Bytes) : Option SocketAddr :=
  if verCmd >>> 4 = 2 ∧ verCmd &&& 0x0f = 1 then
    if family >>> 4 = 1 ∧ 12 ≤ body.length then
      some (.new (.v4 (.ofNat 32 (fromBe (body.take 4)))) (.ofNat (fromBe ((body.drop 8).take 2))))
    else if family >>> 4 = 2 ∧ 36 ≤ body.length then
      some (.new (.v6 (.ofNat 128 (fromBe (body.take 16))))
        (.ofNat (fromBe ((body.drop 32).take 2))))
    else none
  else none

section Accept

variable (parseIp : String → Option IpAddr)

def readV1 (stream : Source UInt8) (buf : Bytes) (peer : SocketAddr) :
    Except IoError (Prefixed × SocketAddr) := do
  let (buf, stream) ← readLine buf stream
  let stop := (crlfAt buf).getD 0 + 2
  let line := fromUtf8Lossy (buf.take (stop - 2))
  let client := (parseV1 parseIp line).getD peer
  .ok (.new stream (buf.drop stop), client)

def readV2 (stream : Source UInt8) (buf : Bytes) (peer : SocketAddr) :
    Except IoError (Prefixed × SocketAddr) := do
  let (buf, stream) := stream.fill 16 buf
  if buf.length < 16 then .error ⟨.unexpectedEof, "PROXY v2 header cut short"⟩
  else do
    let len := fromBe ((buf.drop 14).take 2)
    let (body, stream) ← readExact len stream
    .ok (.new stream [], (clientV2 (buf.getD 12 0) (buf.getD 13 0) body).getD peer)

def readHeader (stream : Source UInt8) (peer : SocketAddr) (expect : Expect) (trusted : Trusted) :
    Except IoError (Prefixed × SocketAddr) :=
  let (buf, stream) := stream.fill 12 []
  let wanted := expect.version.signature.isPrefixOf buf
  let other := expect.version.other.signature.isPrefixOf buf
  if !trusted.contains peer.ip then .ok (.new stream buf, peer)
  else if other then .ok (.new stream buf, peer)
  else if wanted then
    match expect.version with
    | .one => readV1 parseIp stream buf peer
    | .two => readV2 stream buf peer
  else .ok (.new stream buf, peer)

/-- The address to treat as the client's, and the stream where the header ended. -/
def accept (stream : Source UInt8) (peer : SocketAddr) (expect : Expect) (trusted : Trusted) :
    Except IoError (Prefixed × SocketAddr) :=
  if !expect.on then .ok (.new stream [], peer) else readHeader parseIp stream peer expect trusted

end Accept

end SchemaRegistry.Proxy
