import EthernetMac.Address.LinkLayer
import EthernetMac.Adapter.Power
import EthernetMac.Adapter.Prepare

namespace EthernetMac.Inventory

def parameters : List (String × Nat) :=
  [ ("ADDRESS_WIDTH_32", MacFeature1.width32.toNat),
    ("ADDRESS_WIDTH_40", MacFeature1.width40.toNat),
    ("ADDRESS_WIDTH_48", MacFeature1.width48.toNat),
    ("CHANNEL_STATUS_MASK", ChannelStatus.hardwareBits.toNat),
    ("LINK_STATUS_BIT", linkCause.toNat),
    ("MAC_ADDRESS_BASE", Register.addressTable),
    ("MAC_ADDRESS_STRIDE", Register.addressStride),
    ("MAC_ADDR_LEN", MacAddress.size),
    ("MAX_DMA_MAPPING_SIZE", Capabilities.largestMapping),
    ("MAX_LINK_LAYER_ADDR_LEN", LinkLayerAddress.maxLength),
    ("MMC_CONTROL_COUNTER_RESET", Bus.resetCounters.toNat),
    ("MTL_TX_QUEUE_ENABLED", Working.txQueueEnabled.toNat),
    ("MTU", Capabilities.standardMtu),
    ("PAUSE_TIME_MAX", Working.longestPause.toNat),
    ("PHYIF_SPEED_2_5M", MacPhyStatus.clock2M5.toNat),
    ("PHYIF_SPEED_25M", MacPhyStatus.clock25M.toNat),
    ("PHYIF_SPEED_125M", MacPhyStatus.clock125M.toNat),
    ("PORT_SELECT_SPEED_1000M", MacConfiguration.port1000M.toNat),
    ("PORT_SELECT_SPEED_100M", MacConfiguration.port100M.toNat),
    ("PORT_SELECT_SPEED_10M", MacConfiguration.port10M.toNat),
    ("QUEUE_DESCRIPTOR_MIN_COUNT", Capabilities.shortestRing),
    ("REGISTER_BLOCK_SIZE", windowSize),
    ("RESET_POLL_INTERVAL_US", Reset.pollInterval),
    ("RESET_RETRY_COUNT", Reset.maxPolls),
    ("RX_BUFFER_SIZE", Capabilities.receiveBufferSize) ]

/-- No two numbers are reported under one name. -/
theorem names_nodup : ((Register.directory ++ parameters).map Prod.fst).Nodup := by decide +kernel

def synthesizedStart : List Byte := MacAddress.synthesizedPrefix.toList

def filterFlags : List FilterFlags :=
  [.none, .directed, .multicast, .allMulticast, .broadcast, .promiscuous]

def interruptMasks : List InterruptMask :=
  [.none, .stateOnly, .receiveOnly, .transmitOnly, .all]

end EthernetMac.Inventory
