import VigorMcp.Commands.CommandDef
import VigorMcp.Ssh.SdkVigorClient

/-!
# The confirmation policy of the tools

`kind` says whether a tool reads or writes; the confirm tier says how hard the
gate is before a write may run. `writePolicy` is the explicit policy of single
write tools, `readPolicy` that of reads with sensitive output; `applyToolPolicy`
merges them onto a tool.
-/

namespace VigorMcp

structure WritePolicy where
  confirm : Option ConfirmTier := none
  affectsNetwork : Option Bool := none
  secretArgs : Option (List JStr) := none
  snapshotRead : Option JStr := none
  skipCommit : Option Bool := none

/-- Reads whose output is not persisted. -/
def readPolicy : List JStr :=
  [js "ddns_show", js "ddns_show_all", js "radius_show", js "radius_external_view",
    js "radius_external_viewprofile", js "ldap_view", js "tacacsplus_view", js "vpn_wg_show",
    js "usb_user_list", js "csm_appe_config", js "ip_ospf_cfg_show", js "mngt_rmtcfg_status",
    js "sys_cfg_status"]

def resolveConfirmTier (kind : CommandKind) (policy : Option WritePolicy)
    (sdkClassification : Option Classification) : ConfirmTier :=
  match kind with
  | .read => .auto
  | .write =>
    if policy.bind WritePolicy.confirm = some .dual ∨ sdkClassification = some .destructive then
      .dual
    else .confirm

/-- Explicit policy by tool id. A write tool that is missing here has the tier `confirm`. -/
def writePolicy : List (JStr × WritePolicy) :=
  [(js "sys_passwd", { confirm := some .dual, secretArgs := some [js "old", js "new"] }),
    (js "sys_commit", { skipCommit := some true }),
    (js "sys_reboot",
      { confirm := some .dual, affectsNetwork := some true, skipCommit := some true }),
    (js "sys_tftpd", { confirm := some .dual }),
    (js "wan_enable",
      { confirm := some .dual,
        affectsNetwork := some true, snapshotRead := some (js "wan_status") }),
    (js "wan_disable",
      { confirm := some .dual,
        affectsNetwork := some true, snapshotRead := some (js "wan_status") }),
    (js "dhcp_on", { confirm := some .dual, affectsNetwork := some true }),
    (js "dhcp_off", { confirm := some .dual, affectsNetwork := some true }),
    (js "dhcp_startip", { affectsNetwork := some true, snapshotRead := some (js "dhcp_status") }),
    (js "dhcp_gateway", { affectsNetwork := some true, snapshotRead := some (js "dhcp_status") }),
    (js "nat_dmz",
      { confirm := some .dual, affectsNetwork := some true, snapshotRead := some (js "show_dmz") }),
    (js "ip_addr",
      { confirm := some .dual, affectsNetwork := some true, snapshotRead := some (js "show_lan") }),
    (js "ip_nmask",
      { confirm := some .dual, affectsNetwork := some true, snapshotRead := some (js "show_lan") }),
    (js "ip_route_add",
      { affectsNetwork := some true, snapshotRead := some (js "ip_route_status") }),
    (js "ip_route_del",
      { affectsNetwork := some true, snapshotRead := some (js "ip_route_status") }),
    (js "ip_bgp", { secretArgs := some [js "key"] }),
    (js "mngt_sshport", { confirm := some .dual }),
    (js "mngt_telnetport", { confirm := some .dual }),
    (js "mngt_httpport", { confirm := some .dual }),
    (js "mngt_httpsport", { confirm := some .dual }),
    (js "mngt_bfp", { confirm := some .dual }),
    (js "linux_setlinuxip",
      { confirm := some .dual, affectsNetwork := some true, secretArgs := some [js "password"] }),
    (js "sdk_linux_setlinuxip", { secretArgs := some [js "password"] }),
    (js "port_speed", { affectsNetwork := some true }),
    (js "ipf_set", { confirm := some .dual }),
    (js "ipf_rule", { confirm := some .dual }),
    (js "ipf_flowtrack_set", { confirm := some .dual }),
    (js "swm_group", { secretArgs := some [js "password"] }),
    (js "swm_detail", { secretArgs := some [js "password"] }),
    (js "swm_maintain", { confirm := some .dual }),
    (js "hsportal_setup", { secretArgs := some [js "appKey", js "appId"] }),
    (js "ldap_set", { secretArgs := some [js "value"] }),
    (js "tacacsplus_set", { secretArgs := some [js "secret"] }),
    (js "ddns_set", { secretArgs := some [js "password"] }),
    (js "ddns_set_update", { secretArgs := some [js "password"] }),
    (js "mngt_certimport", { secretArgs := some [js "password"] }),
    (js "radius_client_add", { secretArgs := some [js "secret"] }),
    (js "service_login", { secretArgs := some [js "password"] }),
    (js "sys_adminuser", { secretArgs := some [js "password"] }),
    (js "vpn_setup", { affectsNetwork := some true, secretArgs := some [js "param"] }),
    (js "vpn_ovpn", { affectsNetwork := some true, secretArgs := some [js "param"] }),
    (js "vpn_wg_keyset", { confirm := some .dual, secretArgs := some [js "privateKey"] }),
    (js "vpn_dial_out", { affectsNetwork := some true }),
    (js "qos_setup", { affectsNetwork := some true }),
    (js "qos_class", { affectsNetwork := some true }),
    (js "qos_type", { affectsNetwork := some true }),
    (js "qos_voip", { affectsNetwork := some true }),
    (js "dos_activate", { affectsNetwork := some true }),
    (js "dos_deactivate", { confirm := some .dual, affectsNetwork := some true }),
    (js "internet_set",
      { confirm := some .dual, affectsNetwork := some true, secretArgs := some [js "password"] }),
    (js "internet", { secretArgs := some [js "password"] }),
    (js "ip6_internet", { secretArgs := some [js "password"] }),
    (js "ha_set", { confirm := some .dual, affectsNetwork := some true }),
    (js "vrrp_enable", { confirm := some .dual, affectsNetwork := some true }),
    (js "vrrp_set", { affectsNetwork := some true }),
    (js "vigbrg_set", { affectsNetwork := some true }),
    (js "vlan_on",
      { confirm := some .dual,
        affectsNetwork := some true, snapshotRead := some (js "vlan_status") }),
    (js "vlan_off",
      { confirm := some .dual,
        affectsNetwork := some true, snapshotRead := some (js "vlan_status") }),
    (js "vlan_group", { affectsNetwork := some true, snapshotRead := some (js "vlan_status") }),
    (js "upnp_on", { affectsNetwork := some true }),
    (js "upnp_off", { affectsNetwork := some true }),
    (js "wol_send", { skipCommit := some true }),
    (js "testmail_send", { skipCommit := some true }),
    (js "user_account", { confirm := some .dual, secretArgs := some [js "param", js "userName"] }),
    (js "user_edit", { secretArgs := some [js "param"] }),
    (js "user_set", { secretArgs := some [js "param"] }),
    (js "user", { secretArgs := some [js "param", js "userName"] }),
    (js "user_setdefault", { confirm := some .dual }),
    (js "msubnet_switch", { confirm := some .dual, affectsNetwork := some true }),
    (js "ip6_addr", { affectsNetwork := some true }),
    (js "portmaptime_flush", { affectsNetwork := some true })]

def applyToolPolicy (operationFor : JStr → Option AnyOperation) (cmd : CommandDef) : CommandDef :=
  let policy := if cmd.kind = .write then writePolicy.lookup cmd.id else none
  let sensitive := cmd.kind = .read ∧ cmd.id ∈ readPolicy
  let sdkClassification := (cmd.sdk.bind fun sdk => operationFor sdk.manifestId).map
    AnyOperation.classification
  let policySecretArgs := (policy.bind WritePolicy.secretArgs).getD []
  let secretArgs := (cmd.secretArgs.getD [] ++ policySecretArgs).eraseDups
  { cmd with
    affectsNetwork := (policy.bind WritePolicy.affectsNetwork).or cmd.affectsNetwork
    snapshotRead := (policy.bind WritePolicy.snapshotRead).or cmd.snapshotRead
    skipCommit := (policy.bind WritePolicy.skipCommit).or cmd.skipCommit
    secretArgs := if secretArgs.length > 0 then some secretArgs else cmd.secretArgs
    sensitiveOutput := if sensitive then some true else cmd.sensitiveOutput
    confirm := some (resolveConfirmTier cmd.kind policy sdkClassification) }

end VigorMcp
