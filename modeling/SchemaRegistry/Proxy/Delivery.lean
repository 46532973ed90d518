import SchemaRegistry.Lib.Except
import SchemaRegistry.Proxy.Protocol

/-!
No byte of a connection is lost: what is read ahead of the header decision is given back, and what
happens depends on the bytes alone, however they arrive.
-/

namespace SchemaRegistry.Proxy

open Lib

/-! ### What the next layer reads -/

namespace Prefixed

/-- The bytes a stream has yet to give. -/
def content (p : Prefixed) : Bytes := p.pre.drop p.pos ++ p.inner.content

theorem content_new (inner : Source UInt8) (pre : Bytes) :
    (new inner pre).content = pre ++ inner.content := rfl

theorem content_read (p : Prefixed) (k : Nat) :
    (p.read k).1 ++ (p.read k).2.content = p.content := by
  unfold read
  split
  · rfl
  · split
    · next hk hpos =>
        simp only [content]
        rw [← List.append_assoc, ← List.drop_drop, List.take_append_drop]
    · next hk hpos =>
        simp only [content, List.drop_of_length_le (Nat.le_of_not_lt hpos), List.nil_append]
        exact p.inner.content_read k

theorem read_eq_nil_iff (p : Prefixed) {k : Nat} (hk : 0 < k) :
    (p.read k).1 = [] ↔ p.content = [] := by
  unfold read content
  rw [if_neg (by omega)]
  split
  · next hpos =>
      have hdrop : p.pre.drop p.pos ≠ [] := by
        rw [ne_eq, List.drop_eq_nil_iff]
        omega
      refine iff_of_false ?_ (by simp [hdrop])
      rw [List.take_eq_nil_iff]
      rintro (hzero | hnil)
      · omega
      · exact hdrop hnil
  · next hpos =>
      rw [List.drop_of_length_le (Nat.le_of_not_lt hpos), List.nil_append]
      exact p.inner.read_eq_nil_iff hk

/-- Reading a stream to its end, with any buffers, gives some bytes. -/
inductive Delivers : Prefixed → Bytes → Prop where
  | done {p : Prefixed} {k : Nat} (hk : 0 < k) (h : (p.read k).1 = []) : Delivers p []
  | more {p : Prefixed} {bs : Bytes} (k : Nat) (h : Delivers (p.read k).2 bs) :
      Delivers p ((p.read k).1 ++ bs)

theorem delivers_iff {p : Prefixed} {bs : Bytes} : p.Delivers bs ↔ bs = p.content := by
  constructor
  · intro h
    induction h with
    | done hk h => exact ((read_eq_nil_iff _ hk).mp h).symm
    | more k h ih => rw [ih, content_read]
  · rintro rfl
    -- One byte at a time; each read makes what is left shorter.
    induction hlen : p.content.length using Nat.strong_induction_on generalizing p with
    | _ n ih =>
      by_cases hend : p.content = []
      · rw [hend]
        exact .done Nat.one_pos ((read_eq_nil_iff p Nat.one_pos).mpr hend)
      · have hread : (p.read 1).1 ≠ [] := mt (read_eq_nil_iff p Nat.one_pos).mp hend
        have hpos := List.length_pos_iff.mpr hread
        have hcontent := p.content_read 1
        have hshorter : (p.read 1).2.content.length < n := by
          rw [← hlen, ← hcontent, List.length_append]
          omega
        rw [← hcontent]
        exact .more 1 (ih _ hshorter rfl)

end Prefixed

/-! ### A line -/

section Line

theorem crlfAt_append {l : Bytes} {i : Nat} (h : crlfAt l = some i) (r : Bytes) :
    crlfAt (l ++ r) = some i := by
  fun_induction crlfAt l generalizing i with
  | case1 a b l hab =>
    simpa [crlfAt, hab] using h
  | case2 a b l hab ih =>
    obtain ⟨j, hj, rfl⟩ := Option.map_eq_some_iff.mp h
    simp only [List.cons_append, crlfAt, if_neg hab] at ih ⊢
    rw [ih hj, Option.map_some]
  | case3 => cases h

/-- The first CRLF ends a line that has none. -/
theorem crlfAt_spec {l : Bytes} {i : Nat} (h : crlfAt l = some i) :
    ∃ line rest, l = line ++ 0x0D :: 0x0A :: rest ∧ line.length = i
      ∧ crlfAt (line ++ [0x0D]) = none := by
  fun_induction crlfAt l generalizing i with
  | case1 a b l hab =>
    cases h
    exact ⟨[], l, by rw [hab.1, hab.2]; rfl, rfl, rfl⟩
  | case2 a b l hab ih =>
    obtain ⟨j, hj, rfl⟩ := Option.map_eq_some_iff.mp h
    obtain ⟨line, rest, hl, hlen, hnone⟩ := ih hj
    refine ⟨a :: line, rest, by rw [hl]; rfl, by rw [List.length_cons, hlen], ?_⟩
    cases line with
    | nil => simp [crlfAt]
    | cons c line =>
      have hc : b = c := (List.cons.inj hl).1
      show crlfAt (a :: c :: (line ++ [0x0D])) = none
      rw [crlfAt, if_neg (hc ▸ hab), ← List.cons_append, hnone]
      rfl
  | case3 => cases h

/-- What is read of a line: up to the first CRLF of the first bytes, if there is one. -/
theorem readLine_spec (buf : Bytes) (stream : Source UInt8) (hbuf : buf.length ≤ v1Max + 1) :
    match crlfAt ((buf ++ stream.content).take (v1Max + 1)) with
    | some i => ∃ buf' stream', readLine buf stream = .ok (buf', stream') ∧ crlfAt buf' = some i
        ∧ buf' ++ stream'.content = buf ++ stream.content
    | none => readLine buf stream = .error
        (if (buf ++ stream.content).length ≤ v1Max then
          ⟨.unexpectedEof, "PROXY v1 header cut short"⟩
        else ⟨.invalidData, "PROXY v1 header too long"⟩) := by
  have hpre : (buf ++ stream.content).take (v1Max + 1)
      = buf ++ stream.content.take (v1Max + 1 - buf.length) := by
    rw [List.take_append, List.take_of_length_le hbuf]
  induction buf, stream using readLine.induct with
  | case1 buf stream hfound =>
    obtain ⟨i, hi⟩ := Option.isSome_iff_exists.mp hfound
    rw [hpre, crlfAt_append hi]
    exact ⟨buf, stream, by rw [readLine, if_pos hfound], hi, rfl⟩
  | case2 buf stream hfound hlong =>
    have hfull : v1Max + 1 - buf.length = 0 := by omega
    have hnone : crlfAt buf = none := Option.not_isSome_iff_eq_none.mp hfound
    rw [hpre, hfull, List.take_zero, List.append_nil, hnone]
    show readLine buf stream = _
    rw [readLine, if_neg hfound, if_pos hlong, if_neg (by rw [List.length_append]; omega)]
  | case3 buf stream hfound hshort stream' hread =>
    have hend : stream.content = [] := (stream.read_eq_nil_iff Nat.one_pos).mp (by rw [hread])
    have hnone : crlfAt buf = none := Option.not_isSome_iff_eq_none.mp hfound
    rw [hpre, hend, List.take_nil, List.append_nil, hnone]
    show readLine buf stream = _
    rw [readLine, if_neg hfound, if_neg hshort, hread, if_pos (by omega)]
  | case4 buf stream hfound hshort b bs stream' hread ih =>
    have hone : bs = [] := by
      have hlen := stream.length_read_le 1
      rw [hread, List.length_cons] at hlen
      exact List.eq_nil_of_length_eq_zero (by omega)
    have hcontent := stream.content_read 1
    rw [hread, hone] at hcontent
    have hsame : buf ++ [b] ++ stream'.content = buf ++ stream.content := by
      rw [← hcontent, List.append_assoc]
    have hlen : (buf ++ [b]).length ≤ v1Max + 1 := by
      rw [List.length_append, List.length_singleton]
      omega
    have hstep : readLine buf stream = readLine (buf ++ [b]) stream' := by
      rw [readLine, if_neg hfound, if_neg hshort, hread]
    rw [hstep, ← hsame]
    refine ih hlen ?_
    rw [List.take_append, List.take_of_length_le hlen]

end Line

/-! ### The header as a function of the bytes -/

section Header

variable (parseIp : String → Option IpAddr) (peer : SocketAddr)

/-- The length of a header of text and its client. -/
def headerV1 (bytes : Bytes) : Except IoError (Nat × SocketAddr) :=
  match crlfAt (bytes.take (v1Max + 1)) with
  | some i => .ok (i + 2, (parseV1 parseIp (fromUtf8Lossy (bytes.take i))).getD peer)
  | none => .error
      (if bytes.length ≤ v1Max then ⟨.unexpectedEof, "PROXY v1 header cut short"⟩
      else ⟨.invalidData, "PROXY v1 header too long"⟩)

/-- The length of a binary header and its client. -/
def headerV2 (bytes : Bytes) : Except IoError (Nat × SocketAddr) :=
  if bytes.length < 16 then .error ⟨.unexpectedEof, "PROXY v2 header cut short"⟩
  else
    let len := fromBe ((bytes.drop 14).take 2)
    if bytes.length < 16 + len then .error ⟨.unexpectedEof, "early eof"⟩
    else
      .ok (16 + len,
        (clientV2 (bytes.getD 12 0) (bytes.getD 13 0) ((bytes.drop 16).take len)).getD peer)

/-- The length of the header that is believed, and its client. -/
def headerOf (version : Version) (trust : Bool) (bytes : Bytes) :
    Except IoError (Nat × SocketAddr) :=
  if trust && version.signature.isPrefixOf bytes then
    match version with
    | .one => headerV1 parseIp peer bytes
    | .two => headerV2 peer bytes
  else .ok (0, peer)

/-- A connection is handed on as the header says. -/
def HandsOn (bytes : Bytes) (header : Except IoError (Nat × SocketAddr))
    (r : Except IoError (Prefixed × SocketAddr)) : Prop :=
  match header with
  | .error e => r = .error e
  | .ok (n, client) => ∃ p, r = .ok (p, client) ∧ p.content = bytes.drop n

variable {parseIp peer} {stream : Source UInt8} {buf : Bytes}

theorem readV1_handsOn (hbuf : buf.length ≤ v1Max + 1) :
    HandsOn (buf ++ stream.content) (headerV1 parseIp peer (buf ++ stream.content))
      (readV1 parseIp stream buf peer) := by
  have hline := readLine_spec buf stream hbuf
  unfold headerV1
  generalize hbytes : buf ++ stream.content = bytes at hline ⊢
  cases hcrlf : crlfAt (bytes.take (v1Max + 1)) with
  | none =>
    rw [hcrlf] at hline
    show readV1 parseIp stream buf peer = .error _
    rw [readV1, hline]
    rfl
  | some i =>
    rw [hcrlf] at hline
    obtain ⟨buf', stream', hread, hi, hsame⟩ := hline
    have hlen : i + 2 ≤ buf'.length := by
      obtain ⟨line, rest, hline, hlen, -⟩ := crlfAt_spec hi
      simp only [hline, List.length_append, List.length_cons]
      omega
    refine ⟨.new stream' (buf'.drop (i + 2)), ?_, ?_⟩
    · have htake : bytes.take i = buf'.take i := by
        rw [← hsame, List.take_append_of_le_length (by omega)]
      rw [readV1, hread, ok_bind, htake]
      simp only [hi, Option.getD_some, Nat.add_sub_cancel]
    · rw [Prefixed.content_new, ← hsame, List.drop_append_of_le_length hlen]

theorem readV2_handsOn (hbuf : buf.length ≤ 16) :
    HandsOn (buf ++ stream.content) (headerV2 peer (buf ++ stream.content))
      (readV2 stream buf peer) := by
  have hfill := stream.fill_of_length_le hbuf
  unfold headerV2 readV2
  generalize buf ++ stream.content = bytes at hfill ⊢
  generalize stream.fill 16 buf = r at hfill ⊢
  obtain ⟨head, stream'⟩ := r
  obtain ⟨rfl, hrest⟩ := hfill
  have hshort : (bytes.take 16).length < 16 ↔ bytes.length < 16 := by
    rw [List.length_take]
    omega
  simp only [hshort]
  by_cases hlen : bytes.length < 16
  · rw [if_pos hlen, if_pos hlen]
    rfl
  · have hfield : ((bytes.take 16).drop 14).take 2 = (bytes.drop 14).take 2 := by
      rw [List.drop_take, List.take_take, Nat.min_eq_left (by decide)]
    have hbody := stream'.fill_nil (fromBe ((bytes.drop 14).take 2))
    have hleft : stream'.content = bytes.drop 16 := hrest
    rw [hleft] at hbody
    rw [if_neg hlen, if_neg hlen, hfield]
    generalize fromBe ((bytes.drop 14).take 2) = len at hbody ⊢
    unfold readExact
    generalize stream'.fill len [] = r at hbody ⊢
    obtain ⟨body, stream''⟩ := r
    obtain ⟨rfl, hrest'⟩ := hbody
    have heof : ((bytes.drop 16).take len).length < len ↔ bytes.length < 16 + len := by
      rw [List.length_take, List.length_drop]
      omega
    simp only [heof]
    by_cases hcut : bytes.length < 16 + len
    · rw [if_pos hcut, if_pos hcut]
      rfl
    · rw [if_neg hcut, if_neg hcut, ok_bind]
      refine ⟨.new stream'' [], ?_, ?_⟩
      · simp [List.getD_eq_getElem?_getD]
      · rw [Prefixed.content_new, List.nil_append]
        show stream''.content = _
        rw [hrest', List.drop_drop]

theorem isPrefixOf_take {sig bytes : Bytes} (hsig : sig.length ≤ 12) :
    sig.isPrefixOf (bytes.take 12) = sig.isPrefixOf bytes := by
  rw [Bool.eq_iff_iff, List.isPrefixOf_iff_prefix, List.isPrefixOf_iff_prefix]
  exact ⟨fun h => h.trans (List.take_prefix _ _), fun h => List.prefix_take_iff.mpr ⟨h, hsig⟩⟩

theorem length_signature_le (version : Version) : version.signature.length ≤ 12 := by
  cases version <;> decide

/-- The two versions start differently. -/
theorem other_signature_of_signature {version : Version} {bytes : Bytes}
    (h : version.signature.isPrefixOf bytes = true) :
    version.other.signature.isPrefixOf bytes = false := by
  have hv1 : v1Start = 0x50 :: v1Start.tail := by decide
  have hv2 : v2Signature = 0x0D :: v2Signature.tail := rfl
  cases bytes with
  | nil => cases version <;> rfl
  | cons b bytes =>
    cases version with
    | one =>
      rw [Version.signature, hv1, List.isPrefixOf, Bool.and_eq_true, beq_iff_eq] at h
      rw [Version.other, Version.signature, hv2, List.isPrefixOf, ← h.1]
      rfl
    | two =>
      rw [Version.signature, hv2, List.isPrefixOf, Bool.and_eq_true, beq_iff_eq] at h
      rw [Version.other, Version.signature, hv1, List.isPrefixOf, ← h.1]
      rfl

/-- Every way of splitting the bytes into reads gives what the bytes say. -/
theorem accept_handsOn (version : Version) (trusted : Trusted) (stream : Source UInt8) :
    HandsOn stream.content (headerOf parseIp peer version (trusted.contains peer.ip) stream.content)
      (accept parseIp stream peer ⟨true, version⟩ trusted) := by
  have hfill := stream.fill_nil 12
  unfold headerOf accept readHeader
  generalize stream.content = bytes at hfill ⊢
  simp only [Bool.not_true, Bool.false_eq_true, if_false]
  generalize stream.fill 12 [] = r at hfill ⊢
  obtain ⟨buf, stream'⟩ := r
  obtain ⟨rfl, hrest⟩ := hfill
  have hback : bytes.take 12 ++ stream'.content = bytes := by
    rw [hrest]
    exact List.take_append_drop 12 bytes
  have hkept : HandsOn bytes (.ok (0, peer)) (.ok (.new stream' (bytes.take 12), peer)) :=
    ⟨_, rfl, hback⟩
  have hbuf : (bytes.take 12).length ≤ 12 := List.length_take_le 12 bytes
  simp only [isPrefixOf_take (length_signature_le _)]
  cases trusted.contains peer.ip with
  | false => exact hkept
  | true =>
    simp only [Bool.true_and, Bool.not_true, Bool.false_eq_true, if_false]
    by_cases hwanted : version.signature.isPrefixOf bytes = true
    · simp only [other_signature_of_signature hwanted, hwanted, Bool.false_eq_true,
        if_true, if_false]
      cases version with
      | one =>
        have hread : HandsOn (bytes.take 12 ++ stream'.content)
            (headerV1 parseIp peer (bytes.take 12 ++ stream'.content))
            (readV1 parseIp stream' (bytes.take 12) peer) :=
          readV1_handsOn (Nat.le_trans hbuf (by decide))
        rwa [hback] at hread
      | two =>
        have hread : HandsOn (bytes.take 12 ++ stream'.content)
            (headerV2 peer (bytes.take 12 ++ stream'.content))
            (readV2 stream' (bytes.take 12) peer) :=
          readV2_handsOn (Nat.le_trans hbuf (by decide))
        rwa [hback] at hread
    · simp only [hwanted, Bool.false_eq_true, if_false, ite_self]
      exact hkept

end Header

/-! ### Nothing is lost -/

section Outcome

variable (parseIp : String → Option IpAddr) (peer : SocketAddr)

/-- A header that is believed, and the client it names. -/
inductive Believed : Version → Bytes → SocketAddr → Prop where
  /-- A line up to its first CRLF. -/
  | one {line : Bytes} (hstart : v1Start <+: line) (hlen : line.length < v1Max)
      (hline : crlfAt (line ++ [0x0D]) = none) :
      Believed .one (line ++ [0x0D, 0x0A]) ((parseV1 parseIp (fromUtf8Lossy line)).getD peer)
  /-- Sixteen bytes, and as many as the last two of them say. -/
  | two {head body : Bytes} (hstart : v2Signature <+: head) (hhead : head.length = 16)
      (hbody : body.length = fromBe (head.drop 14)) :
      Believed .two (head ++ body) ((clientV2 (head.getD 12 0) (head.getD 13 0) body).getD peer)

/-- What becomes of a connection: an error, or a client and the bytes the next layer reads. -/
inductive Outcome (stream : Source UInt8) (expect : Expect) (trusted : Trusted) :
    Except IoError (SocketAddr × Bytes) → Prop where
  | failed {e : IoError} (h : accept parseIp stream peer expect trusted = .error e) :
      Outcome stream expect trusted (.error e)
  | accepted {p : Prefixed} {client : SocketAddr} {bs : Bytes}
      (h : accept parseIp stream peer expect trusted = .ok (p, client)) (hbs : p.Delivers bs) :
      Outcome stream expect trusted (.ok (client, bs))

variable {parseIp peer}

theorem headerV1_believed {bytes : Bytes} {n : Nat} {client : SocketAddr}
    (hstart : v1Start <+: bytes) (h : headerV1 parseIp peer bytes = .ok (n, client)) :
    Believed parseIp peer .one (bytes.take n) client := by
  unfold headerV1 at h
  cases hcrlf : crlfAt (bytes.take (v1Max + 1)) with
  | none => rw [hcrlf] at h; cases h
  | some i =>
    rw [hcrlf] at h
    cases h
    obtain ⟨line, rest, hcut, rfl, hnone⟩ := crlfAt_spec hcrlf
    have hbytes : bytes = line ++ [0x0D, 0x0A] ++ (rest ++ bytes.drop (v1Max + 1)) := by
      conv_lhs => rw [← List.take_append_drop (v1Max + 1) bytes, hcut]
      simp
    have hlen := congrArg List.length hcut
    simp only [List.length_take, List.length_append, List.length_cons] at hlen
    have hheader : bytes.take (line.length + 2) = line ++ [0x0D, 0x0A] := by
      rw [hbytes, List.take_left' (by simp)]
    have hline : bytes.take line.length = line := by
      rw [hbytes, List.append_assoc, List.take_left]
    have hpre : v1Start <+: line := by
      have hcr : line ++ [0x0D] <+: bytes := by
        rw [hbytes]
        exact ⟨0x0A :: (rest ++ bytes.drop (v1Max + 1)), by simp⟩
      have hwhole : line <+: bytes := (List.prefix_append line [0x0D]).trans hcr
      rcases Nat.lt_or_ge line.length v1Start.length with hshort | hlong
      · -- Then the CR would be a byte of the signature.
        have hin : line ++ [0x0D] <+: v1Start :=
          List.prefix_of_prefix_length_le hcr hstart (by
            rw [List.length_append]
            exact hshort)
        have hmem : (0x0D : UInt8) ∈ v1Start := hin.subset (by simp)
        exact absurd hmem (by decide)
      · exact List.prefix_of_prefix_length_le hstart hwhole hlong
    rw [hheader, hline]
    exact .one hpre (by omega) hnone

theorem headerV2_believed {bytes : Bytes} {n : Nat} {client : SocketAddr}
    (hstart : v2Signature <+: bytes) (h : headerV2 peer bytes = .ok (n, client)) :
    Believed parseIp peer .two (bytes.take n) client := by
  unfold headerV2 at h
  split at h
  · cases h
  · next hlen =>
      dsimp only at h
      split at h
      · cases h
      · next hbody =>
          cases h
          have hhead : (bytes.take 16).length = 16 := by
            rw [List.length_take]
            omega
          have hfield : (bytes.take 16).drop 14 = (bytes.drop 14).take 2 := List.drop_take
          have hstart' : v2Signature <+: bytes.take 16 :=
            List.prefix_take_iff.mpr ⟨hstart, by decide⟩
          have hget : ∀ i < 16, bytes.getD i 0 = (bytes.take 16).getD i 0 := by
            intro i hi
            simp [List.getD_eq_getElem?_getD, hi]
          rw [List.take_add, hget 12 (by decide), hget 13 (by decide)]
          refine .two hstart' hhead ?_
          rw [hfield, List.length_take, List.length_drop]
          omega

theorem headerOf_believed {bytes : Bytes} {version : Version} {trust : Bool} {n : Nat}
    {client : SocketAddr} (h : headerOf parseIp peer version trust bytes = .ok (n, client)) :
    if trust = true ∧ version.signature <+: bytes then
      Believed parseIp peer version (bytes.take n) client
    else bytes.take n = [] ∧ client = peer := by
  have hbelieve : (trust && version.signature.isPrefixOf bytes) = true
      ↔ trust = true ∧ version.signature <+: bytes := by
    rw [Bool.and_eq_true_iff, List.isPrefixOf_iff_prefix]
  unfold headerOf at h
  by_cases hsig : trust = true ∧ version.signature <+: bytes
  · rw [if_pos (hbelieve.mpr hsig)] at h
    rw [if_pos hsig]
    cases version with
    | one => exact headerV1_believed hsig.2 h
    | two => exact headerV2_believed hsig.2 h
  · rw [if_neg (mt hbelieve.mp hsig)] at h
    rw [if_neg hsig]
    cases h
    exact ⟨rfl, rfl⟩

/-- An outcome is what the bytes say. -/
theorem outcome_iff {s : Source UInt8} {version : Version} {trusted : Trusted}
    {o : Except IoError (SocketAddr × Bytes)} :
    Outcome parseIp peer s ⟨true, version⟩ trusted o
      ↔ o = (headerOf parseIp peer version (trusted.contains peer.ip) s.content).map
        fun h => (h.2, s.content.drop h.1) := by
  have hands :
      HandsOn s.content (headerOf parseIp peer version (trusted.contains peer.ip) s.content)
      (accept parseIp s peer ⟨true, version⟩ trusted) := accept_handsOn version trusted s
  cases hheader : headerOf parseIp peer version (trusted.contains peer.ip) s.content with
  | error e =>
    rw [hheader] at hands
    have hfail : accept parseIp s peer ⟨true, version⟩ trusted = .error e := hands
    constructor
    · rintro (h | ⟨h, -⟩)
      · rw [hfail] at h
        cases h
        rfl
      · rw [hfail] at h
        cases h
    · rintro rfl
      exact .failed hfail
  | ok r =>
    obtain ⟨n, client⟩ := r
    rw [hheader] at hands
    obtain ⟨p, hp, hcontent⟩ := hands
    constructor
    · rintro (h | ⟨h, hbs⟩)
      · rw [hp] at h
        cases h
      · rw [hp] at h
        cases h
        rw [Prefixed.delivers_iff.mp hbs, hcontent]
        rfl
    · rintro rfl
      refine .accepted hp ?_
      rw [Prefixed.delivers_iff, hcontent]

/-- A connection keeps all its bytes but the header that is believed: what happens depends on the
bytes and not on how they arrive, what is delivered is the rest behind the header, and a peer that
is not trusted stays the client with every byte delivered. -/
theorem accept_loses_no_bytes (parseIp : String → Option IpAddr) (peer : SocketAddr)
    (version : Version) (trusted : Trusted) :
    (∀ s s' : Source UInt8, s.content = s'.content → ∀ o,
        Outcome parseIp peer s ⟨true, version⟩ trusted o
          ↔ Outcome parseIp peer s' ⟨true, version⟩ trusted o)
      ∧ (∀ s : Source UInt8, ∃ o, ∀ o', Outcome parseIp peer s ⟨true, version⟩ trusted o' ↔ o' = o)
      ∧ (∀ (s : Source UInt8) (client : SocketAddr) (bs : Bytes),
        Outcome parseIp peer s ⟨true, version⟩ trusted (.ok (client, bs)) →
          ∃ header, s.content = header ++ bs ∧
            if trusted.contains peer.ip = true ∧ version.signature <+: s.content then
              Believed parseIp peer version header client
            else header = [] ∧ client = peer)
      ∧ (trusted.contains peer.ip = false → ∀ s o,
        Outcome parseIp peer s ⟨true, version⟩ trusted o ↔ o = .ok (peer, s.content)) := by
  refine ⟨fun s s' hsame o => ?_, fun s => ⟨_, fun o => outcome_iff⟩, fun s client bs h => ?_,
    fun htrust s o => ?_⟩
  · rw [outcome_iff, outcome_iff, hsame]
  · have hout := outcome_iff.mp h
    cases hheader : headerOf parseIp peer version (trusted.contains peer.ip) s.content with
    | error e =>
      rw [hheader] at hout
      cases hout
    | ok r =>
      rw [hheader] at hout
      cases hout
      exact ⟨s.content.take r.1, (List.take_append_drop r.1 s.content).symm,
        headerOf_believed hheader⟩
  · rw [outcome_iff, htrust]
    rfl

/-- Addresses of four decimal numbers. -/
def dottedQuad (s : String) : Option IpAddr := do
  let parts ← (s.toList.splitOn '.').mapM fun part => parseU32 (String.ofList part)
  if parts.length = 4 ∧ parts.all (·.toNat < 256) then
    some (.v4 (.ofNat 32 (parts.foldl (fun acc n => acc * 256 + n.toNat) 0)))
  else none

/-- `10.0.0.0/8`. -/
def lan : Trusted := [⟨.v4 0x0A000000#32, 8, by decide⟩]

/-- A header from the proxy that comes in three pieces, and the same bytes at once. -/
def inPieces : Source UInt8 :=
  ⟨[utf8 "PROXY TCP4 198.51", utf8 ".100.7 10.0.0.2 56324 8081\r", utf8 "\nGET /"], by decide⟩

def atOnce : Source UInt8 :=
  ⟨[utf8 "PROXY TCP4 198.51.100.7 10.0.0.2 56324 8081\r\nGET /"], by decide⟩

/-- The proxy is believed; a stranger who sends the same is not. -/
theorem accept_in_pieces :
    Outcome dottedQuad (.v4 0x0A000002#32 40000) inPieces ⟨true, .one⟩ lan
        (.ok (.v4 0xC6336407#32 56324, utf8 "GET /"))
      ∧ (∃ header, inPieces.content = header ++ utf8 "GET /" ∧
        Believed dottedQuad (.v4 0x0A000002#32 40000) .one header (.v4 0xC6336407#32 56324))
      ∧ Outcome dottedQuad (.v4 0x08080808#32 40000) inPieces ⟨true, .one⟩ lan
        (.ok (.v4 0x08080808#32 40000, inPieces.content)) := by
  obtain ⟨hsame, -, hheader, -⟩ :=
    accept_loses_no_bytes dottedQuad (.v4 0x0A000002#32 40000) .one lan
  obtain ⟨-, -, -, hstranger⟩ := accept_loses_no_bytes dottedQuad (.v4 0x08080808#32 40000) .one lan
  have hat : Outcome dottedQuad (.v4 0x0A000002#32 40000) atOnce ⟨true, .one⟩ lan
      (.ok (.v4 0xC6336407#32 56324, utf8 "GET /")) := by
    rw [outcome_iff]
    decide
  have hin := (hsame inPieces atOnce (by decide) _).mpr hat
  obtain ⟨header, hcontent, hbelieved⟩ := hheader inPieces _ _ hin
  rw [if_pos (by decide)] at hbelieved
  exact ⟨hin, ⟨header, hcontent, hbelieved⟩, (hstranger (by decide) inPieces _).mpr rfl⟩

end Outcome

end SchemaRegistry.Proxy
