import NonosSdk.Framework.Mem

/-!
# The leases of the soft-AP DHCP server (`lwip/app/dhcpserver.c`)

The lease list as `wifi_softap_dhcps_client_update`, `wifi_softap_dhcps_client_leave`
and `dhcps_coarse_tmr` change it. An address is a word as in `ip.addr`, with its first
octet in the lowest byte, and the list is ordered by these words. A pointer to a
node is its place in the list, with what is there (`DhcpsNode`). `os_zalloc`
succeeds, as the code assumes; `wifi_softap_set_station_info` is left out.
-/

namespace Nonos

/-- `lwip_htonl`, and `lwip_ntohl`. -/
def htonl (n : Word) : Word :=
  ((n &&& 0xFF) <<< 24) ||| ((n &&& 0xFF00) <<< 8) ||| ((n &&& 0xFF0000) >>> 8) ||| ((n &&& 0xFF000000) >>> 24)

/-- `dhcps_type_t` -/
inductive DhcpsType where
  | dynamic
  | static
  deriving DecidableEq

/-- `dhcps_state_t` -/
inductive DhcpsState where
  | online
  | offline
  deriving DecidableEq

/-- `struct dhcps_pool`: a lease. -/
structure DhcpsPool where
  ip : Word
  mac : BitVec 48
  leaseTimer : Word
  type : DhcpsType
  state : DhcpsState
  deriving DecidableEq

/-- `struct dhcps_lease`: which addresses are leased. -/
structure DhcpsLease where
  enable : Bool
  startIp : Word
  endIp : Word

/-- The variables of `dhcpserver.c`. -/
structure DhcpServer where
  dhcpsLease : DhcpsLease
  plist : List DhcpsPool
  /-- `dhcps_lease_time` -/
  dhcpsLeaseTime : Word
  renew : Bool

/-- `DHCPS_MAX_LEASE` -/
def dhcpsMaxLease : Word := 0x64

/-- `MAX_STATION_NUM` -/
def maxStationNum : Byte := 8

/-- `wifi_softap_init_dhcps_lease` -/
def wifiSoftapInitDhcpsLease (lease : DhcpsLease) (ip : Word) : DhcpsLease :=
  let softapIp := htonl ip
  let startIp := htonl lease.startIp
  let endIp := htonl lease.endIp
  let enable := lease.enable && !(startIp ≤ softapIp && softapIp ≤ endIp) &&
    !(startIp >>> 8 != softapIp >>> 8 || endIp >>> 8 != softapIp >>> 8 || endIp - startIp > dhcpsMaxLease)
  if enable then lease
  else
    let localIp := softapIp &&& 0xFF
    let localIp := if localIp ≥ 0x80 then localIp - dhcpsMaxLease else localIp + 1
    let softapIp := softapIp &&& 0xFFFFFF00
    { enable := false, startIp := htonl (softapIp ||| localIp),
      endIp := htonl (softapIp ||| (localIp + dhcpsMaxLease - 1)) }

/-- `node_insert_to_list` -/
def nodeInsertToList : List DhcpsPool → DhcpsPool → List DhcpsPool
  | [], node => [node]
  | pool :: plist, node =>
    if node.ip < pool.ip then node :: pool :: plist else pool :: nodeInsertToList plist node

/-- A `list_node` of the list. -/
abbrev DhcpsNode := Nat × DhcpsPool

/-- The local variables of `wifi_softap_dhcps_client_update` after its loop. -/
structure ClientSearch where
  flag : Bool
  startIp : Word
  pmacNode : Option DhcpsNode
  pipNode : Option DhcpsNode

/-- The loop of `wifi_softap_dhcps_client_update`, from place `i` of the list on. -/
def clientSearch (bssid : BitVec 48) (ip : Option Word) : Nat → List DhcpsPool → ClientSearch → ClientSearch
  | _, [], s => s
  | i, pool :: plist, s =>
    let s := if pool.mac = bssid then { s with pmacNode := some (i, pool) } else s
    match ip with
    | none =>
      if pool.mac = bssid then { s with flag := true }
      else if s.flag then clientSearch bssid none (i + 1) plist s
      else if pool.ip ≠ s.startIp then clientSearch bssid none (i + 1) plist { s with flag := true }
      else clientSearch bssid none (i + 1) plist { s with startIp := htonl (htonl s.startIp + 1) }
    | some addr =>
      let s := if pool.ip = addr then { s with pipNode := some (i, pool) } else s
      clientSearch bssid (some addr) (i + 1) plist s

namespace DhcpServer

variable (s : DhcpServer)

/-- The fields that every granted request sets. -/
def grant (type : DhcpsType) (pool : DhcpsPool) : DhcpsPool :=
  { pool with leaseTimer := s.dhcpsLeaseTime, type, state := .online }

/-- `wifi_softap_dhcps_client_update` after the checks of `ip`; `none` is `NULL`. If the
loop has not found an address, there is one after those in the list or the function
returns, so `flag` is set from there on. -/
def clientUpdate (bssid : BitVec 48) (ip : Option Word) : Word × DhcpServer :=
  let type := if ip.isSome then DhcpsType.static else .dynamic
  let s := { s with renew := false }
  let found := clientSearch bssid ip 0 s.plist ⟨false, s.dhcpsLease.startIp, none, none⟩
  if ip = none ∧ found.flag = false ∧ found.startIp > s.dhcpsLease.endIp then (0, s)
  else
    let newIp := ip.getD found.startIp
    match found.pmacNode, found.pipNode with
    | some (i, _), some (k, pool) =>
      if k ≠ i then
        if pool.state ≠ .offline then (0, s)
        else
          -- the client's lease goes, and it takes over the other one
          let plist := s.plist.set k (s.grant type { pool with mac := bssid })
          (pool.ip, { s with plist := plist.eraseIdx i })
      else (pool.ip, { s with plist := s.plist.set k (s.grant .dynamic pool), renew := true })
    | some (i, pool), none =>
      let pool := s.grant type { pool with ip := newIp }
      (newIp, { s with plist := nodeInsertToList (s.plist.eraseIdx i) pool })
    | none, some (k, pool) =>
      if pool.state ≠ .offline then (0, s)
      else (pool.ip, { s with plist := s.plist.set k (s.grant type { pool with mac := bssid }) })
    | none, none =>
      if newIp > s.dhcpsLease.endIp then (0, s)
      else
        let pool := { ip := newIp, mac := bssid, leaseTimer := s.dhcpsLeaseTime, type, state := .online }
        (newIp, { s with plist := nodeInsertToList s.plist pool })

/-- `wifi_softap_dhcps_client_update` -/
def wifiSoftapDhcpsClientUpdate (bssid : BitVec 48) : Option Word → Word × DhcpServer
  | none => s.clientUpdate bssid none
  | some ip =>
    if ip = 0xFFFFFFFF then (0, s)
    else if ip = 0 then s.clientUpdate bssid none
    else s.clientUpdate bssid (some ip)

/-- The loop of `wifi_softap_dhcps_client_leave`. -/
def clientLeave (bssid : BitVec 48) (ip : Word) (force : Bool) : List DhcpsPool → List DhcpsPool
  | [] => []
  | pool :: plist =>
    if pool.mac = bssid ∧ pool.ip = ip then
      if pool.type = .static ∨ force then plist else { pool with state := .offline } :: plist
    else pool :: clientLeave bssid ip force plist

/-- `wifi_softap_dhcps_client_leave` -/
def wifiSoftapDhcpsClientLeave (bssid : BitVec 48) (ip : Word) (force : Bool) : DhcpServer :=
  { s with plist := clientLeave bssid ip force s.plist }

/-- The search of `kill_oldest_dhcps_pool`, from place `i` on: where `minp` ends up. -/
def oldest (minp : DhcpsNode) : Nat → List DhcpsPool → DhcpsNode
  | _, [] => minp
  | i, pool :: plist => oldest (if pool.leaseTimer < minp.2.leaseTimer then (i, pool) else minp) (i + 1) plist

/-- `kill_oldest_dhcps_pool`, for two leases at least: the oldest one but for the first is
removed. `pdhcps_pool` is the last one then. -/
def killOldestDhcpsPool : List DhcpsPool → List DhcpsPool
  | pre :: p :: plist =>
    let (i, _) := oldest (1, p) 1 (p :: plist)
    let plist := (p :: plist).modify plist.length fun pool => { pool with state := .offline }
    (pre :: plist).eraseIdx i
  | plist => plist

/-- The loop of `dhcps_coarse_tmr`. -/
def coarseTmr : List DhcpsPool → List DhcpsPool
  | [] => []
  | pool :: plist =>
    let pool := if pool.type = .dynamic then { pool with leaseTimer := pool.leaseTimer - 1 } else pool
    if pool.leaseTimer = 0 then coarseTmr plist else pool :: coarseTmr plist

/-- `dhcps_coarse_tmr`; `num_dhcps_pool` is a `uint8`. -/
def dhcpsCoarseTmr : DhcpServer :=
  let plist := coarseTmr s.plist
  { s with plist := if BitVec.ofNat 8 plist.length ≥ maxStationNum then killOldestDhcpsPool plist else plist }

end DhcpServer

end Nonos
