import TPST.Foundations.Fields
import TPST.Utils.Positions

/-!
# The address of a peer

`Subscribe` takes the address and the port of its client from the URI of the peer. `parseIP` and
`parsePort` erase the scheme `ipv4:` where it is found, and then cut at the first colon. An URI of
another scheme is not tested for: `Peer.parsedWell_iff` says which peers are parsed.
-/

namespace TPST

open Cut

/-- `parsePort`. -/
def parsePort (peerURL : List Char) : Except Fault (List Char) := do
  let startPosition := find "ipv4:".toList peerURL
  let peerURL ← erase startPosition 5 peerURL
  let endPosition := find [':'] peerURL
  erase 0 (endPosition + 1).toNat peerURL

/-- `parseIP`. -/
def parseIP (peerURL : List Char) : Except Fault (List Char) := do
  let startPosition := find "ipv4:".toList peerURL
  let peerURL ← erase startPosition 5 peerURL
  let len := peerURL.length
  let startPosition := find [':'] peerURL
  erase startPosition (len - startPosition).toNat peerURL

/-- The peers of an RPC. -/
inductive Peer
  | ipv4 (address port : String)
  | ipv6 (address port : String)
  | unix (path : String)
  deriving DecidableEq, Repr

namespace Peer

/-- What `peer()` returns. -/
def url : Peer → String
  | ipv4 address port => "ipv4:" ++ address ++ ":" ++ port
  | ipv6 address port => "ipv6:[" ++ address ++ "]:" ++ port
  | unix path => "unix:" ++ path

/-- The part behind the scheme, for a peer with an IP address. -/
def hostPort? : Peer → Option String
  | ipv4 address port => some (address ++ ":" ++ port)
  | ipv6 address port => some ("[" ++ address ++ "]:" ++ port)
  | unix _ => none

/-- Both parsers come to their end, and the results put together are the part behind the scheme. -/
def ParsedWell (peer : Peer) : Prop :=
  ∃ ip port, parseIP peer.url.toList = .ok ip ∧ parsePort peer.url.toList = .ok port ∧
    ∀ hostPort ∈ peer.hostPort?, ip ++ ':' :: port = hostPort.toList

end Peer

section Parse

variable {peerURL rest pre post : List Char}

/-- Without a scheme `ipv4:` both raise. -/
theorem parseIP_other_scheme (h : ¬ "ipv4:".toList <:+: peerURL) :
    parseIP peerURL = .error .outOfRange := by
  rw [parseIP, find_eq_neg_one_iff.2 h]
  dsimp only
  rw [erase_neg (by decide)]
  rfl

/-- What is left when the scheme is erased is cut at its first colon. -/
theorem exists_cut (hurl : erase (find "ipv4:".toList peerURL) 5 peerURL = .ok rest)
    (hcolon : ':' ∈ rest) :
    ∃ ip port, rest = ip ++ ':' :: port ∧ parseIP peerURL = .ok ip ∧
      parsePort peerURL = .ok port := by
  obtain ⟨ip, port, rfl, hfree⟩ := List.eq_append_cons_of_mem hcolon
  refine ⟨ip, port, rfl, ?_, ?_⟩
  · have hend := @erase_span ip (':' :: port) [] ip.length (port.length + 1) rfl (by simp)
    rw [List.append_nil, List.append_nil] at hend
    rw [parseIP]
    dsimp only
    rw [hurl]
    change erase (find [':'] (ip ++ ':' :: port)) _ _ = _
    rw [find_char hfree, ← hend]
    congr 1
    simp only [List.length_append, List.length_cons]
    omega
  · have hstart := @erase_span [] (ip ++ [':']) port 0 (ip.length + 1) rfl (by simp)
    rw [List.nil_append, List.append_assoc, List.singleton_append, List.nil_append] at hstart
    rw [parsePort]
    dsimp only
    rw [hurl]
    change erase 0 (find [':'] (ip ++ ':' :: port) + 1).toNat _ = _
    rw [find_char hfree, ← hstart]
    congr 1

/-- The scheme is erased where it is found. -/
theorem exists_erased (h : "ipv4:".toList <:+: peerURL) :
    ∃ pre post, peerURL = pre ++ "ipv4:".toList ++ post ∧
      erase (find "ipv4:".toList peerURL) 5 peerURL = .ok (pre ++ post) := by
  obtain ⟨pre, post, hurl, hfind⟩ := exists_find h
  refine ⟨pre, post, hurl, ?_⟩
  rw [hfind, hurl]
  exact erase_span rfl rfl

/-- The results put together are what is left when the scheme is erased. -/
theorem append_of_parsed {ip port : List Char} (hip : parseIP peerURL = .ok ip)
    (hport : parsePort peerURL = .ok port)
    (hurl : erase (find "ipv4:".toList peerURL) 5 peerURL = .ok rest) :
    ip ++ ':' :: port = rest := by
  have hcolon : ':' ∈ rest := by
    by_contra hfree
    rw [parseIP] at hip
    dsimp only at hip
    rw [hurl] at hip
    change erase (find [':'] rest) _ rest = _ at hip
    rw [find_eq_neg_one_iff.2 (by rwa [List.singleton_infix_iff]), erase_neg (by decide)] at hip
    cases hip
  obtain ⟨ip', port', hrest, hip', hport'⟩ := exists_cut hurl hcolon
  rw [hip, Except.ok.injEq] at hip'
  rw [hport, Except.ok.injEq] at hport'
  rw [hrest, hip', hport']

end Parse

namespace Peer

variable {address port path : String}

/-- The scheme of an IPv4 address is found at the front. -/
theorem parsedWell_ipv4 : (ipv4 address port).ParsedWell := by
  have hurl : (ipv4 address port).url.toList =
      "ipv4:".toList ++ (address.toList ++ ':' :: port.toList) := by
    simp [url]
  have herase := @erase_span [] "ipv4:".toList (address.toList ++ ':' :: port.toList) 0 5 rfl rfl
  rw [List.nil_append, List.nil_append] at herase
  obtain ⟨ip, port', hcut, hip, hport⟩ := exists_cut (find_of_append ▸ herase) (by simp)
  refine ⟨ip, port', hurl ▸ hip, hurl ▸ hport, ?_⟩
  rintro _ ⟨⟩
  simp [← hcut]

/-- An IPv6 address is cut from an URI that still begins with an `i`, if at all. -/
theorem not_parsedWell_ipv6 : ¬ (ipv6 address port).ParsedWell := by
  rintro ⟨ip, port', hip, hport, hsame⟩
  by_cases hfound : "ipv4:".toList <:+: (ipv6 address port).url.toList
  · obtain ⟨pre, post, hurl, herase⟩ := exists_erased hfound
    have hjoin := append_of_parsed hip hport herase
    rw [hsame _ rfl] at hjoin
    cases pre with
    | nil => simp [url] at hurl
    | cons c pre =>
      have hi : 'i' = c := by
        simp only [url, String.toList_append, List.cons_append] at hurl
        exact (List.cons.inj hurl).1
      have hbracket : '[' = c := by
        simp only [String.toList_append, List.cons_append] at hjoin
        exact (List.cons.inj hjoin).1
      rw [← hi] at hbracket
      exact absurd hbracket (by decide)
  · rw [parseIP_other_scheme hfound] at hip
    cases hip

/-- A path is cut where it has the IPv4 scheme in it. -/
theorem parsedWell_unix_iff : (unix path).ParsedWell ↔ "ipv4:".toList <:+: path.toList := by
  have hscheme :
      "ipv4:".toList <:+: (unix path).url.toList ↔ "ipv4:".toList <:+: path.toList := by
    simp [url, List.infix_cons_iff, List.cons_prefix_cons]
  rw [← hscheme]
  constructor
  · rintro ⟨ip, port, hip, -⟩
    by_contra hfound
    rw [parseIP_other_scheme hfound] at hip
    cases hip
  · intro hfound
    obtain ⟨pre, post, hurl, herase⟩ := exists_erased hfound
    -- both schemes have one colon, and so has the path
    have hone : ("ipv4:".toList).count ':' = ("unix:".toList).count ':' := by decide
    have hpath : 1 ≤ path.toList.count ':' := (hscheme.1 hfound).sublist.count_le ':'
    have hcolon : ':' ∈ pre ++ post := by
      have hcount := congrArg (List.count ':') hurl
      rw [url, String.toList_append, List.count_append, List.count_append, List.count_append]
        at hcount
      rw [← List.count_pos_iff, List.count_append]
      omega
    obtain ⟨ip, port, -, hip, hport⟩ := exists_cut herase hcolon
    exact ⟨ip, port, hip, hport, by simp [hostPort?]⟩

/-- **Which peers are parsed**: those with an IPv4 address, and those with a path in which the IPv4
scheme happens to stand. -/
theorem parsedWell_iff (peer : Peer) :
    peer.ParsedWell ↔ (∃ address port, peer = .ipv4 address port) ∨
      ∃ path, peer = .unix path ∧ "ipv4:".toList <:+: path.toList := by
  cases peer with
  | ipv4 address port => exact iff_of_true parsedWell_ipv4 (.inl ⟨address, port, rfl⟩)
  | ipv6 address port => exact iff_of_false not_parsedWell_ipv6 (by simp)
  | unix path => simp [parsedWell_unix_iff]

/-- A client with an IPv6 address. -/
theorem parsedWell_fails : ¬ ∀ peer : Peer, peer.ParsedWell := by
  intro hall
  obtain ⟨ip, port, hip, -⟩ := hall (.ipv6 "::1" "50051")
  have hraises : parseIP (ipv6 "::1" "50051").url.toList = .error .outOfRange := by decide +kernel
  rw [hraises] at hip
  cases hip

end Peer

example : parseIP "ipv4:123.123.123.123:2345543".toList = .ok "123.123.123.123".toList ∧
    parsePort "ipv4:123.123.123.123:2345543".toList = .ok "2345543".toList := by
  decide +kernel

end TPST
