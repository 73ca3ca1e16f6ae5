import KseRewriteProxy.Config.Effective
import KseRewriteProxy.Text.Delimiter

/-!
# The upstream address

`parse_upstream` of `config.rs` accepts an explicit loopback HTTP address. What it reads of a parsed
URL are texts that the crate `url` prints: `Url` is a parsed URL before it is printed, and
`Url.parsed` gives the texts as the crate documents them. Two of them are not what the URL states:
an IPv6 host is printed in brackets, and a port is dropped when it is the default of the scheme.

`Url.IsExplicitLoopback` says which URLs ought to be accepted, and with which address.
`parseUpstream_eq_ok_iff` says which are: all of them but those with the host `[::1]`, which is
compared without brackets, and those that state the port 80.

The code compares texts where the statement compares addresses. An IPv4 address is read back from
its text (`ipv4Text_injective`), a domain is no text of an address, and the text of an IPv6 host has
a bracket that neither of the two texts has with which the host is compared (`text_eq_iff`). So
comparing texts is comparing hosts, except for the host that is written with brackets.
-/

namespace KseRewriteProxy

open Text

/-! ### Hosts -/

/-- `url::Host`. -/
inductive Host where
  | domain (name : Str)
  | ipv4 (bits : BitVec 32)
  | ipv6 (bits : BitVec 128)
  deriving DecidableEq

/-- The decimal digits of one of the four bytes of an IPv4 address. -/
def octetDigits (bits : BitVec 32) (start : ℕ) : Str :=
  Nat.toDigits 10 (bits.extractLsb' start 8).toNat

/-- The text of an IPv4 address. -/
def ipv4Text (bits : BitVec 32) : Str :=
  octetDigits bits 24 ++ '.' :: (octetDigits bits 16 ++ '.' ::
    (octetDigits bits 8 ++ '.' :: octetDigits bits 0))

/-- The text of a host, with the printer of the crate for IPv6 addresses. -/
def Host.text (printIpv6 : BitVec 128 → Str) : Host → Str
  | domain name => name
  | ipv4 bits => ipv4Text bits
  | ipv6 bits => str "[" ++ printIpv6 bits ++ str "]"

/-- A text that the host parser takes for a domain: without a colon, and its last label is not a
number, because such a host is read as an IPv4 address. -/
def IsDomain (name : Str) : Prop :=
  ':' ∉ name ∧ ∀ label, (split '.' name).getLast? = some label → label ≠ [] →
    ¬ label.all Char.isDigit

/-! ### URLs -/

/-- `Url::default_port`, of the schemes that have one. -/
def defaultPort (scheme : Str) : Option UInt16 :=
  if scheme = str "http" ∨ scheme = str "ws" then some 80
  else if scheme = str "https" ∨ scheme = str "wss" then some 443
  else if scheme = str "ftp" then some 21
  else none

/-- An absolute URL. -/
structure Url where
  scheme : Str
  username : Str
  password : Option Str
  host : Option Host
  /-- The port that the text states. -/
  statedPort : Option UInt16
  path : Str
  query : Option Str
  fragment : Option Str
  isDomain_of_host : ∀ name, host = some (.domain name) → IsDomain name

/-- What the accessors of the crate return: `host_str` prints the host, and `port` leaves out the
default port. -/
def Url.parsed (printIpv6 : BitVec 128 → Str) (url : Url) : ParsedUrl where
  scheme := url.scheme
  username := url.username
  password := url.password
  query := url.query
  fragment := url.fragment
  path := if url.scheme = str "http" ∧ url.path = [] then str "/" else url.path
  hostStr := url.host.map (Host.text printIpv6)
  port := url.statedPort.filter fun port ↦ some port != defaultPort url.scheme

/-- The address of a loopback host. -/
def Host.loopback (host : Host) : Option IpAddr :=
  if host = ipv4 0x7F000001 ∨ host = domain (str "localhost") then some (.v4 0x7F000001)
  else if host = ipv6 1 then some (.v6 1)
  else none

/-- The URL is an explicit loopback HTTP address. -/
structure Url.IsExplicitLoopback (url : Url) (address : SocketAddr) : Prop where
  scheme : url.scheme = str "http"
  username : url.username = []
  password : url.password = none
  query : url.query = none
  fragment : url.fragment = none
  path : url.path = [] ∨ url.path = str "/"
  host : ∃ host, url.host = some host ∧ host.loopback = some address.ip
  port : url.statedPort = some address.port

/-! ### The texts of loopback hosts -/

theorem not_mem_octetDigits {c : Char} (hc : c.isDigit = false) (bits : BitVec 32) (start : ℕ) :
    c ∉ octetDigits bits start := by
  intro hmem
  have hdigit := Nat.isDigit_of_mem_toDigits (by decide) (by decide) hmem
  rw [hc] at hdigit
  exact absurd hdigit (by simp)

/-- An octet is read back from its digits. -/
theorem extract_eq_of_octetDigits {bits bits' : BitVec 32} {start : ℕ}
    (h : octetDigits bits start = octetDigits bits' start) :
    bits.extractLsb' start 8 = bits'.extractLsb' start 8 := by
  have hread := congrArg (fun digits ↦ Nat.ofDigitChars 10 digits 0) h
  simp only [octetDigits, Nat.ofDigitChars_ten_toDigits] at hread
  exact BitVec.eq_of_toNat_eq hread

/-- **The text of an IPv4 address determines it.** -/
theorem ipv4Text_injective : Function.Injective ipv4Text := by
  intro bits bits' h
  have hdot := fun b start ↦ not_mem_octetDigits (c := '.') (by decide) b start
  obtain ⟨h₃, h⟩ := append_cons_inj (hdot _ _) (hdot _ _) h
  obtain ⟨h₂, h⟩ := append_cons_inj (hdot _ _) (hdot _ _) h
  obtain ⟨h₁, h₀⟩ := append_cons_inj (hdot _ _) (hdot _ _) h
  refine BitVec.eq_of_getLsbD_eq fun i hi ↦ ?_
  -- each bit lies in one of the four bytes
  have hbit : ∀ {start}, octetDigits bits start = octetDigits bits' start → start ≤ i →
      i < start + 8 → bits.getLsbD i = bits'.getLsbD i := by
    intro start hdigits hle hlt
    have hbyte := congrArg (·.getLsbD (i - start)) (extract_eq_of_octetDigits hdigits)
    simp only [BitVec.getLsbD_extractLsb', Nat.add_sub_cancel' hle] at hbyte
    rwa [decide_eq_true (by omega : i - start < 8), Bool.true_and, Bool.true_and] at hbyte
  rcases Nat.lt_or_ge i 8 with h8 | h8
  · exact hbit h₀ (by omega) (by omega)
  rcases Nat.lt_or_ge i 16 with h16 | h16
  · exact hbit h₁ (by omega) (by omega)
  rcases Nat.lt_or_ge i 24 with h24 | h24
  · exact hbit h₂ (by omega) (by omega)
  · exact hbit h₃ (by omega) (by omega)

theorem ipv4Text_loopback : ipv4Text 0x7F000001 = str "127.0.0.1" := by
  decide

/-- An IPv4 address is printed without a colon and begins with a digit. -/
theorem ipv4Text_ne (bits : BitVec 32) :
    ipv4Text bits ≠ str "::1" ∧ ipv4Text bits ≠ str "localhost" := by
  have hcolon : ':' ∉ ipv4Text bits := by
    have hoctet := fun start ↦ not_mem_octetDigits (c := ':') (by decide) bits start
    simp only [ipv4Text, List.mem_append, List.mem_cons, hoctet, Char.reduceEq, or_self,
      not_false_eq_true]
  have hdot : '.' ∈ ipv4Text bits := by
    simp [ipv4Text]
  constructor
  · intro h
    rw [h] at hcolon
    exact absurd hcolon (by decide)
  · intro h
    rw [h] at hdot
    exact absurd hdot (by decide)

/-- **The comparison of the host text** finds the IPv4 address and the name, and no IPv6 address. -/
theorem text_eq_iff {host : Host} (hdomain : ∀ name, host = .domain name → IsDomain name)
    (printIpv6 : BitVec 128 → Str) :
    (host.text printIpv6 = str "127.0.0.1" ↔ host = .ipv4 0x7F000001) ∧
      host.text printIpv6 ≠ str "::1" ∧
      (host.text printIpv6 = str "localhost" ↔ host = .domain (str "localhost")) := by
  cases host with
  | domain name =>
    obtain ⟨hcolon, hlabel⟩ := hdomain name rfl
    refine ⟨iff_of_false ?_ (by simp), ?_, ?_⟩
    · rintro rfl
      exact hlabel (str "1") (by decide) (by decide) (by decide)
    · rintro rfl
      exact absurd hcolon (by decide)
    · rw [Host.domain.injEq]
      exact Iff.rfl
  | ipv4 bits =>
    refine ⟨?_, (ipv4Text_ne bits).1, iff_of_false (ipv4Text_ne bits).2 (by simp)⟩
    rw [Host.ipv4.injEq, ← ipv4Text_loopback]
    exact ipv4Text_injective.eq_iff
  | ipv6 bits =>
    -- the bracket is in the way
    have hbracket : ∀ {t : Str}, t.head? ≠ some '[' → (Host.ipv6 bits).text printIpv6 ≠ t := by
      intro t ht h
      exact ht (h ▸ rfl)
    exact ⟨iff_of_false (hbracket (by decide)) (by simp), hbracket (by decide),
      iff_of_false (hbracket (by decide)) (by simp)⟩

/-! ### What is accepted -/

/-- The text of the IPv4 loopback address with a port is read as this address. -/
def ConfigParsers.ReadsLoopback (parsers : ConfigParsers) : Prop :=
  ∀ port, parsers.socketAddr (str "127.0.0.1" ++ str ":" ++ portDigits port) =
    some { ip := .v4 0x7F000001, port := port }

section

variable {parsers : ConfigParsers} {value : Str} {printIpv6 : BitVec 128 → Str} {url : Url}

/-- The port is printed unless it is the one of the scheme. -/
theorem port_parsed_eq_some_iff (h : url.scheme = str "http") {port : UInt16} :
    (url.parsed printIpv6).port = some port ↔ url.statedPort = some port ∧ port ≠ 80 := by
  have hdefault : defaultPort url.scheme = some 80 := by
    rw [h]
    decide
  show (url.statedPort.filter fun port ↦ some port != defaultPort url.scheme) = some port ↔ _
  rw [Option.filter_eq_some_iff, hdefault, bne_iff_ne, ne_eq, Option.some.injEq]

/-- The path is printed as a slash if it is empty. -/
theorem path_parsed_eq_iff (h : url.scheme = str "http") :
    (url.parsed printIpv6).path = str "/" ↔ url.path = [] ∨ url.path = str "/" := by
  show (if url.scheme = str "http" ∧ url.path = [] then str "/" else url.path) = str "/" ↔ _
  split
  · rename_i hempty
    exact iff_of_true rfl (Or.inl hempty.2)
  · rename_i hpath
    exact (or_iff_right fun hempty ↦ hpath ⟨h, hempty⟩).symm

/-- **What `parse_upstream` accepts**: the explicit loopback addresses, without the IPv6 host and
without the default port. -/
theorem parseUpstream_eq_ok_iff (hreads : parsers.ReadsLoopback)
    (hparse : parsers.parseUrl value = some (url.parsed printIpv6)) (address : SocketAddr) :
    parseUpstream parsers value = .ok address ↔
      url.IsExplicitLoopback address ∧ url.host ≠ some (.ipv6 1) ∧ url.statedPort ≠ some 80 := by
  rw [parseUpstream, hparse]
  simp only [bind, Except.bind, pure, Except.pure, throw, throwThe, MonadExceptOf.throw]
  constructor
  · intro h
    split at h
    · exact absurd h (by simp)
    rename_i hscheme
    have hscheme : url.scheme = str "http" := not_not.1 hscheme
    split at h
    · exact absurd h (by simp)
    rename_i hparts
    simp only [not_or, not_not, Bool.not_eq_true, Option.isSome_eq_false_iff,
      Option.isNone_iff_eq_none, path_parsed_eq_iff hscheme] at hparts
    obtain ⟨husername, hpassword, hquery, hfragment, hpath⟩ := hparts
    split at h
    case h_2 => exact absurd h (by simp)
    rename_i text htext
    obtain ⟨host, hhost, rfl⟩ := Option.map_eq_some_iff.1 htext
    obtain ⟨h4, h6, hname⟩ :=
      text_eq_iff (fun name heq ↦ url.isDomain_of_host name (heq ▸ hhost)) printIpv6
    split at h
    · exact absurd h (by simp)
    rename_i hloopback
    split at h
    case h_2 => exact absurd h (by simp)
    rename_i port hport
    obtain ⟨hstated, hne⟩ := (port_parsed_eq_some_iff hscheme).1 hport
    have hnot80 : url.statedPort ≠ some 80 := fun h80 ↦
      hne (Option.some.inj (hstated.symm.trans h80))
    -- both accepted texts stand for the same address
    suffices haddress : address = ⟨.v4 0x7F000001, port⟩ ∧
        (host = .ipv4 0x7F000001 ∨ host = .domain (str "localhost")) by
      obtain ⟨rfl, hkind⟩ := haddress
      refine ⟨⟨hscheme, husername, hpassword, hquery, hfragment, hpath,
        ⟨host, hhost, if_pos hkind⟩, hstated⟩, ?_, hnot80⟩
      rw [hhost]
      rcases hkind with rfl | rfl
      · simp
      · simp
    split at h
    · rename_i hlocal
      exact ⟨(Except.ok.inj h).symm, Or.inr (hname.1 hlocal)⟩
    · rename_i hlocal
      have htext4 : host.text printIpv6 = str "127.0.0.1" := by
        refine Classical.not_not.1 fun hnot ↦ hloopback ⟨hnot, h6, hlocal⟩
      rw [htext4, hreads port, Option.some_or] at h
      exact ⟨(Except.ok.inj h).symm, Or.inl (h4.1 htext4)⟩
  · rintro ⟨haccepted, hhost6, hport80⟩
    obtain ⟨host, hhost, hloopback⟩ := haccepted.host
    have hport : (url.parsed printIpv6).port = some address.port :=
      (port_parsed_eq_some_iff haccepted.scheme).2
        ⟨haccepted.port, fun h80 ↦ hport80 (h80 ▸ haccepted.port)⟩
    have htext : (url.parsed printIpv6).hostStr = some (host.text printIpv6) := by
      show url.host.map _ = _
      rw [hhost]
      rfl
    obtain ⟨h4, -, hname⟩ :=
      text_eq_iff (fun name heq ↦ url.isDomain_of_host name (heq ▸ hhost)) printIpv6
    have hkind : host = .ipv4 0x7F000001 ∨ host = .domain (str "localhost") := by
      refine Classical.not_not.1 fun hnot ↦ ?_
      have hnot6 : host ≠ .ipv6 1 := fun h6 ↦ hhost6 (h6 ▸ hhost)
      rw [Host.loopback, if_neg hnot, if_neg hnot6] at hloopback
      exact absurd hloopback (by simp)
    have hip : address = ⟨.v4 0x7F000001, address.port⟩ := by
      rw [Host.loopback, if_pos hkind] at hloopback
      rw [Option.some.inj hloopback]
    have hscheme : (url.parsed printIpv6).scheme = str "http" := haccepted.scheme
    rw [if_neg (not_not.2 hscheme), if_neg]
    · simp only [htext, hport]
      rcases hkind with hkind | hkind
      · rw [h4.2 hkind, if_neg (by simp), if_neg (by decide), hreads, Option.some_or, ← hip]
      · rw [hname.2 hkind, if_neg (by simp), if_pos rfl, ← hip]
    · simp only [not_or, not_not, Bool.not_eq_true, Option.isSome_eq_false_iff,
        Option.isNone_iff_eq_none, path_parsed_eq_iff haccepted.scheme]
      exact ⟨haccepted.username, haccepted.password, haccepted.query, haccepted.fragment,
        haccepted.path⟩

/-- **Exactly the explicit loopback addresses are accepted** where neither the host `[::1]` nor the
stated port 80 comes in: for a URL that is such an address with one of the two the answer is wrong,
and for every other URL it is right. -/
theorem parseUpstream_accepts_iff (hreads : parsers.ReadsLoopback)
    (hparse : parsers.parseUrl value = some (url.parsed printIpv6)) :
    (∀ address, parseUpstream parsers value = .ok address ↔ url.IsExplicitLoopback address) ↔
      ¬ ∃ address, url.IsExplicitLoopback address ∧
        (url.host = some (.ipv6 1) ∨ url.statedPort = some 80) := by
  simp only [parseUpstream_eq_ok_iff hreads hparse, and_iff_left_iff_imp, not_exists, not_and,
    not_or, ne_eq]

end

/-! ### Two addresses -/

/-- A parser that knows the IPv4 loopback address, and one URL. -/
def loopbackParsers (url : Url) : ConfigParsers where
  yaml _ := .error []
  parseUrl _ := some (url.parsed fun _ ↦ str "::1")
  socketAddr value := (stripPrefix (str "127.0.0.1:") value).map fun digits ↦
    { ip := .v4 0x7F000001, port := UInt16.ofNat (Nat.ofDigitChars 10 digits 0) }
  url := .unreserved

/-- The parsers read the loopback addresses as they are documented. -/
theorem loopbackParsers_readsLoopback (url : Url) : (loopbackParsers url).ReadsLoopback := by
  intro port
  have hstrip : stripPrefix (str "127.0.0.1:") (str "127.0.0.1" ++ str ":" ++ portDigits port) =
      some (portDigits port) := stripPrefix_append _ _
  simp only [loopbackParsers]
  rw [hstrip, Option.map_some, portDigits, Nat.ofDigitChars_ten_toDigits, UInt16.ofNat_toNat]

/-- `http://127.0.0.1:8000`. -/
def plainUrl : Url where
  scheme := str "http"
  username := []
  password := none
  host := some (.ipv4 0x7F000001)
  statedPort := some 8000
  path := []
  query := none
  fragment := none
  isDomain_of_host := by simp

/-- `http://[::1]:8000`. -/
def bracketedUrl : Url :=
  { plainUrl with
    host := some (.ipv6 1)
    isDomain_of_host := by simp }

/-- A plain loopback address is accepted. -/
theorem parseUpstream_accepts_iff_plain :
    (∀ address, parseUpstream (loopbackParsers plainUrl) (str "http://127.0.0.1:8000") =
      .ok address ↔ plainUrl.IsExplicitLoopback address) ↔
      ¬ ∃ address, plainUrl.IsExplicitLoopback address ∧
        (plainUrl.host = some (.ipv6 1) ∨ plainUrl.statedPort = some 80) :=
  parseUpstream_accepts_iff (loopbackParsers_readsLoopback plainUrl) rfl

/-- The IPv6 loopback address is refused. -/
theorem not_parseUpstream_accepts_bracketed :
    bracketedUrl.IsExplicitLoopback ⟨.v6 1, 8000⟩ ∧
      parseUpstream (loopbackParsers bracketedUrl) (str "http://[::1]:8000") =
        .error (.invalidUpstream (str "must use a loopback host")) :=
  ⟨⟨rfl, rfl, rfl, rfl, rfl, Or.inl rfl, ⟨_, rfl, by decide⟩, rfl⟩, by decide⟩

end KseRewriteProxy
