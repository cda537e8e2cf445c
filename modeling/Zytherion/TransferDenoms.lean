import Zytherion.CollateralKeeper
import Zytherion.ByteStrings

/-!
# Denominations of received transfers

The middleware around the transfer module names the coins of a packet by their path:
that of the packet's denomination, with the port and the channel of this chain in front
unless the coins come back. The transfer module credits coins under another name. What
comes back loses the prefix it came with; a path that is left, or one that begins here,
is hashed.

The two names differ for every packet over a channel that is numbered as this chain
numbers its channels. The identifiers of a packet hold no slash; the transfer module's
rules are those of its library.
-/
namespace Zytherion.TransferDenoms

open GoCall KeyedStore Application ChainState CollateralKeeper ByteStrings

structure FungibleTokenPacketData where
  denom : String
  amount : String
  sender : String
  receiver : String
  memo : String

/-- A packet that passed its basic validation. -/
structure Packet where
  sourcePort : String
  sourceChannel : String
  destPort : String
  destChannel : String
  data : List UInt8
  destPort_slash : '/' ∉ destPort.toList
  destChannel_slash : '/' ∉ destChannel.toList

/-- SHA-256, and the JSON reader for the data of a packet. -/
structure TransferLibs where
  sum256 : List UInt8 → Vector UInt8 32
  unmarshal : List UInt8 → Option FungibleTokenPacketData

/-! The transfer module's rules. -/

def getDenomPrefix (portID channelID : String) : String := portID ++ "/" ++ channelID ++ "/"

def receiverChainIsSource (sourcePort sourceChannel denom : String) : Bool :=
  (getDenomPrefix sourcePort sourceChannel).toList.isPrefixOf denom.toList

def splitSlashes (s : String) : List String := (s.toList.splitOn '/').map String.ofList

def joinSlashes (items : List String) : String :=
  String.ofList (['/'].intercalate (items.map String.toList))

/-- The form `channel-` and a number of 64 bits. -/
def isValidChannelID (channelID : String) : Bool :=
  "channel-".toList.isPrefixOf channelID.toList &&
    let digits := channelID.toList.drop 8
    digits.all Char.isDigit && decide (1 ≤ digits.length) && decide (digits.length ≤ 20) &&
      decide (Nat.ofDigitChars 10 digits 0 < 2 ^ 64)

structure DenomTrace where
  path : String
  baseDenom : String

/-- Pairs of a port and a channel are taken off the front for as long as the channel is
numbered in this way. -/
def extractPathAndBase (long : Bool) : List String → List String × List String
  | port :: channel :: rest =>
      if long && isValidChannelID channel then
        (port :: channel :: (extractPathAndBase long rest).1, (extractPathAndBase long rest).2)
      else ([], port :: channel :: rest)
  | items => ([], items)

def parseDenomTrace (rawDenom : String) : DenomTrace :=
  let items := splitSlashes rawDenom
  if items.head? = some rawDenom then ⟨"", rawDenom⟩
  else
    let parts := extractPathAndBase (decide (2 < items.length)) items
    ⟨joinSlashes parts.1, joinSlashes parts.2⟩

def DenomTrace.fullDenomPath (trace : DenomTrace) : String :=
  if trace.path = "" then trace.baseDenom else trace.path ++ "/" ++ trace.baseDenom

/-- The digest in capital digits. -/
def hexBytes (b : List UInt8) : String := String.ofList ((encodeToString b).toList.map Char.toUpper)

section Names
variable (T : TransferLibs) (packet : Packet) (data : FungibleTokenPacketData)

def DenomTrace.ibcDenom (trace : DenomTrace) : String :=
  if trace.path ≠ "" then "ibc/" ++ hexBytes (T.sum256 (utf8 trace.fullDenomPath)).toList
  else trace.baseDenom

/-- Under which name the transfer module credits the coins of a packet. -/
def creditedDenom : String :=
  if receiverChainIsSource packet.sourcePort packet.sourceChannel data.denom then
    let unprefixedDenom := String.ofList (data.denom.toList.drop
      (getDenomPrefix packet.sourcePort packet.sourceChannel).toList.length)
    let denomTrace := parseDenomTrace unprefixedDenom
    if denomTrace.path ≠ "" then denomTrace.ibcDenom T else unprefixedDenom
  else
    (parseDenomTrace (getDenomPrefix packet.destPort packet.destChannel ++ data.denom)).ibcDenom T

/-- Under which name the middleware looks for them. -/
def resolvedDenom : String :=
  if receiverChainIsSource packet.sourcePort packet.sourceChannel data.denom then data.denom
  else getDenomPrefix packet.destPort packet.destChannel ++ data.denom

end Names

/-- The event of collateral that was received. -/
structure CollateralReceived where
  owner : String
  ibcDenom : String
  amount : String
deriving DecidableEq

/-- What the middleware does once the transfer module has answered: the denomination it
looks up, and the event it emits. -/
structure Handling where
  lookedUp : Option String
  event : Option CollateralReceived
deriving DecidableEq

def onRecvPacket (T : TransferLibs) (assets : Store String CollateralAsset) (ackSuccess : Bool)
    (packet : Packet) : Handling :=
  if !ackSuccess then ⟨none, none⟩
  else
    match T.unmarshal packet.data with
    | none => ⟨none, none⟩
    | some data =>
        let ibcDenom := resolvedDenom packet data
        match assets.get (assetKey ibcDenom) with
        | none => ⟨some ibcDenom, none⟩
        | some asset =>
            if !asset.isActive then ⟨some ibcDenom, none⟩
            else ⟨some ibcDenom, some ⟨data.receiver, ibcDenom, data.amount⟩⟩

/-- Whatever the whitelist, an accepted packet is looked up and reported under the name its coins
were credited under. -/
def NamesCredited (T : TransferLibs) (packet : Packet) : Prop :=
  ∀ assets data, T.unmarshal packet.data = some data →
    (onRecvPacket T assets true packet).lookedUp = some (creditedDenom T packet data) ∧
      ∀ e, (onRecvPacket T assets true packet).event = some e →
        e.ibcDenom = creditedDenom T packet data

section Slashes

def slashes (s : String) : ℕ := s.toList.count '/'

theorem slashes_append (s t : String) : slashes (s ++ t) = slashes s + slashes t := by
  rw [slashes, String.toList_append, List.count_append]
  rfl

theorem two_le_slashes (portID channelID : String) :
    2 ≤ slashes (getDenomPrefix portID channelID) := by
  have hone : slashes "/" = 1 := by decide
  simp only [getDenomPrefix, slashes_append, hone]
  omega

theorem slash_notMem_encode (b : List UInt8) :
    '/' ∉ (encodeToString b).toList.map Char.toUpper := by
  have hdigit : ∀ i : Fin 16, (hexDigit i).toUpper ≠ '/' := by decide
  intro h
  obtain ⟨c, hc, hup⟩ := List.mem_map.mp h
  rw [encodeToString, String.toList_ofList, List.mem_flatMap] at hc
  obtain ⟨x, -, hc⟩ := hc
  have hx := x.toNat_lt
  simp only [List.mem_cons, List.not_mem_nil, or_false] at hc
  rcases hc with rfl | rfl
  · exact hdigit ⟨x.toNat / 16, by omega⟩ hup
  · exact hdigit ⟨x.toNat % 16, by omega⟩ hup

/-- A hashed name holds one slash. -/
theorem slashes_hashed (b : List UInt8) : slashes ("ibc/" ++ hexBytes b) = 1 := by
  have hprefix : slashes "ibc/" = 1 := by decide
  have hhex : slashes (hexBytes b) = 0 := by
    rw [slashes, hexBytes, String.toList_ofList, List.count_eq_zero]
    exact slash_notMem_encode b
  rw [slashes_append, hprefix, hhex]

end Slashes

section Traces

theorem joinSlashes_split (s : String) : joinSlashes (splitSlashes s) = s := by
  rw [joinSlashes, splitSlashes, List.map_map]
  have hid : String.toList ∘ String.ofList = id := by
    funext l
    exact String.toList_ofList
  rw [hid, List.map_id, List.intercalate_splitOn, String.ofList_toList]

theorem joinSlashes_ne_empty (port channel : String) (rest : List String) :
    joinSlashes (port :: channel :: rest) ≠ "" := by
  intro h
  have hl := congrArg String.toList h
  rw [joinSlashes, String.toList_ofList] at hl
  simp [List.intercalate] at hl

/-- Nothing was taken off, so that the whole is the base. -/
theorem extractPathAndBase_none {long : Bool} {items : List String}
    (h : joinSlashes (extractPathAndBase long items).1 = "") :
    (extractPathAndBase long items).2 = items := by
  unfold extractPathAndBase at h ⊢
  split at h
  · split_ifs at h ⊢ with hvalid
    · exact (joinSlashes_ne_empty _ _ _ h).elim
    · rfl
  · rfl

theorem parse_native {raw : String} (h : (parseDenomTrace raw).path = "") :
    (parseDenomTrace raw).baseDenom = raw := by
  simp only [parseDenomTrace] at h ⊢
  split_ifs at h ⊢ with hplain
  · rfl
  · rw [extractPathAndBase_none h, joinSlashes_split]

/-- A name without a path is kept. -/
theorem ibcDenom_native (T : TransferLibs) {raw : String} (h : (parseDenomTrace raw).path = "") :
    (parseDenomTrace raw).ibcDenom T = raw := by
  rw [DenomTrace.ibcDenom, if_neg (not_not.mpr h), parse_native h]

theorem slashes_ibcDenom (T : TransferLibs) {trace : DenomTrace} (h : trace.path ≠ "") :
    slashes (trace.ibcDenom T) = 1 := by
  rw [DenomTrace.ibcDenom, if_pos h, slashes_hashed]

theorem splitSlashes_cons {s : String} (h : '/' ∉ s.toList) (t : String) :
    splitSlashes (s ++ "/" ++ t) = s :: splitSlashes t := by
  have hlist : (s ++ "/" ++ t).toList = s.toList ++ '/' :: t.toList := by
    simp [String.toList_append]
  have hparts : (s.toList ++ '/' :: t.toList).splitOn '/' = s.toList :: t.toList.splitOn '/' := by
    apply List.splitOnP_append_cons_of_forall_mem
    · intro c hc
      simp only [beq_eq_false_iff_ne, ne_eq]
      rintro rfl
      exact h hc
    · exact beq_self_eq_true '/'
  rw [splitSlashes, hlist, hparts, List.map_cons, String.ofList_toList]
  rfl

/-- A path that begins with a port and a channel of this chain has them in its trace
exactly if the channel is numbered. -/
theorem path_prefixed {port channel : String} (hport : '/' ∉ port.toList)
    (hchannel : '/' ∉ channel.toList) (denom : String) :
    (parseDenomTrace (getDenomPrefix port channel ++ denom)).path = "" ↔
      isValidChannelID channel = false := by
  have hitems : splitSlashes (getDenomPrefix port channel ++ denom) =
      port :: channel :: splitSlashes denom := by
    have happend : getDenomPrefix port channel ++ denom =
        port ++ "/" ++ (channel ++ "/" ++ denom) := by
      simp only [getDenomPrefix, String.append_assoc]
    rw [happend, splitSlashes_cons hport, splitSlashes_cons hchannel]
  have hrest : splitSlashes denom ≠ [] := by
    simp [splitSlashes, List.splitOn_ne_nil]
  have hlong : 2 < (port :: channel :: splitSlashes denom).length := by
    have hpos := List.length_pos_iff.mpr hrest
    simp only [List.length_cons]
    omega
  have hfull : (port :: channel :: splitSlashes denom).head? ≠
      some (getDenomPrefix port channel ++ denom) := by
    intro h
    have hslashes := congrArg slashes (Option.some.inj h)
    have hprefix := two_le_slashes port channel
    rw [slashes_append, slashes, List.count_eq_zero.mpr hport] at hslashes
    omega
  simp only [parseDenomTrace, hitems, if_neg hfull, decide_eq_true hlong]
  rw [extractPathAndBase]
  cases hvalid : isValidChannelID channel with
  | true => simp [joinSlashes_ne_empty]
  | false => simp [joinSlashes]

end Traces

section Comparison
variable {T : TransferLibs} {packet : Packet} {data : FungibleTokenPacketData}

/-- Coins that come back are credited under a name without the prefix, or a hashed one. -/
theorem resolved_ne_credited_source
    (h : receiverChainIsSource packet.sourcePort packet.sourceChannel data.denom = true) :
    resolvedDenom packet data ≠ creditedDenom T packet data := by
  obtain ⟨rest, hrest⟩ := List.isPrefixOf_iff_prefix.mp h
  have hslashes : 2 ≤ slashes data.denom := by
    have hprefix := two_le_slashes packet.sourcePort packet.sourceChannel
    rw [slashes, ← hrest, List.count_append]
    unfold slashes at hprefix
    omega
  simp only [resolvedDenom, creditedDenom, if_pos h]
  split_ifs with hpath
  · intro heq
    have hone := slashes_ibcDenom T hpath
    rw [← heq] at hone
    omega
  · intro heq
    have hlength := congrArg (fun s : String => s.toList.length) heq
    simp only [String.toList_ofList, ← hrest, List.drop_left, List.length_append] at hlength
    have hpos : 2 ≤ (getDenomPrefix packet.sourcePort packet.sourceChannel).toList.length :=
      (two_le_slashes _ _).trans List.count_le_length
    omega

/-- Coins that arrive are credited under a hashed name unless the channel of this chain
is not numbered. -/
theorem resolved_eq_credited_iff : resolvedDenom packet data = creditedDenom T packet data ↔
    receiverChainIsSource packet.sourcePort packet.sourceChannel data.denom = false ∧
      isValidChannelID packet.destChannel = false := by
  cases hsource : receiverChainIsSource packet.sourcePort packet.sourceChannel data.denom with
  | true => simpa using resolved_ne_credited_source hsource
  | false =>
      have hpath := path_prefixed packet.destPort_slash packet.destChannel_slash data.denom
      simp only [resolvedDenom, creditedDenom, hsource, Bool.false_eq_true, if_false, true_and]
      rw [← hpath]
      constructor
      · intro heq
        by_contra hhashed
        have hone := slashes_ibcDenom T hhashed
        have htwo := two_le_slashes packet.destPort packet.destChannel
        rw [← heq, slashes_append] at hone
        omega
      · intro hnative
        exact (ibcDenom_native T hnative).symm

/-- Whatever the whitelist, the name is looked up, and an event carries it. -/
theorem onRecvPacket_names (assets : Store String CollateralAsset)
    (h : T.unmarshal packet.data = some data) :
    (onRecvPacket T assets true packet).lookedUp = some (resolvedDenom packet data) ∧
      ∀ e, (onRecvPacket T assets true packet).event = some e →
        e.ibcDenom = resolvedDenom packet data := by
  simp only [onRecvPacket, h]
  cases hasset : assets.get (assetKey (resolvedDenom packet data)) with
  | none => simp
  | some asset =>
      cases hactive : asset.isActive with
      | true => simp [hactive]
      | false => simp [hactive]

theorem namesCredited_iff_resolved (T : TransferLibs) (packet : Packet) :
    NamesCredited T packet ↔ ∀ data, T.unmarshal packet.data = some data →
      resolvedDenom packet data = creditedDenom T packet data := by
  constructor
  · intro h data hdata
    obtain ⟨hlooked, -⟩ := h ∅ data hdata
    rw [(onRecvPacket_names ∅ hdata).1] at hlooked
    exact Option.some.inj hlooked
  · intro h assets data hdata
    have hnames := onRecvPacket_names assets hdata
    rw [h data hdata] at hnames
    exact hnames

end Comparison

/-- An accepted packet is looked up and reported under the name its coins were credited
under exactly if they do not come back and the channel of this chain is not numbered as
this chain numbers its channels. -/
theorem names_credited_iff (T : TransferLibs) (packet : Packet) : NamesCredited T packet ↔
    ∀ data, T.unmarshal packet.data = some data →
      receiverChainIsSource packet.sourcePort packet.sourceChannel data.denom = false ∧
        isValidChannelID packet.destChannel = false := by
  rw [namesCredited_iff_resolved]
  exact forall_congr' fun data => imp_congr_right fun _ => resolved_eq_credited_iff

/-- Every packet is read as a transfer of the denomination. -/
def carrying (sum256 : List UInt8 → Vector UInt8 32) (denom : String) : TransferLibs :=
  ⟨sum256, fun _ => some ⟨denom, "1", "", "", ""⟩⟩

theorem slash_notMem_ids : '/' ∉ "transfer".toList ∧ '/' ∉ "channel-0".toList := by decide

/-- A packet over the first channel of this chain. -/
def inbound : Packet :=
  ⟨"transfer", "channel-7", "transfer", "channel-0", [], slash_notMem_ids.1, slash_notMem_ids.2⟩

/-- Whatever the hash: coins of another chain are looked up under their path, and coins
that come back with a prefix they are credited without. -/
theorem paths_looked_up : isValidChannelID inbound.destChannel = true ∧ ∀ sum256,
    ¬NamesCredited (carrying sum256 "uatom") inbound ∧
    resolvedDenom inbound ⟨"uatom", "1", "", "", ""⟩ = "transfer/channel-0/uatom" ∧
    ¬NamesCredited (carrying sum256 "transfer/channel-7/uzytc") inbound ∧
    creditedDenom (carrying sum256 "") inbound ⟨"transfer/channel-7/uzytc", "1", "", "", ""⟩ =
      "uzytc" := by
  have hnumbered : isValidChannelID inbound.destChannel = true := by decide
  have hnot : ∀ T data, T.unmarshal inbound.data = some data → ¬NamesCredited T inbound := by
    intro T data hdata hnames
    have heq := (namesCredited_iff_resolved T inbound).mp hnames data hdata
    have hunnumbered := (resolved_eq_credited_iff.mp heq).2
    rw [hnumbered] at hunnumbered
    cases hunnumbered
  exact ⟨hnumbered, fun sum256 => ⟨hnot _ _ rfl, by decide, hnot _ _ rfl, rfl⟩⟩

end Zytherion.TransferDenoms
