namespace EthernetMac

def windowSize : Nat := 0x1200

namespace Register

def macConfiguration : Nat := 0x0000
def macPacketFilter : Nat := 0x0008
def macTxFlowControl : Nat := 0x0070
def macRxFlowControl : Nat := 0x0090
def macRxQueueControl : Nat := 0x00A0
def macInterruptStatus : Nat := 0x00B0
def macInterruptEnable : Nat := 0x00B4
def macMicrosecondTick : Nat := 0x00DC
/-- Reading it acknowledges the link cause. -/
def macPhyStatus : Nat := 0x00F8
def macVersion : Nat := 0x0110
def macFeature0 : Nat := 0x011C
def macFeature1 : Nat := 0x0120
def macFeature2 : Nat := 0x0124
def macFeature3 : Nat := 0x0128

def addressTable : Nat := 0x0300
def addressStride : Nat := 8

def addressHigh (slot : Nat) : Nat := addressTable + slot * addressStride
def addressLow (slot : Nat) : Nat := addressTable + slot * addressStride + 4

/-- Offsets are 64-bit numbers; from this slot on, a slot has none. -/
def slotLimit : Nat := (UInt64.size - addressTable) / addressStride

theorem addressHigh_lt_iff (slot : Nat) : addressHigh slot < UInt64.size ↔ slot < slotLimit := by
  simp only [addressHigh, slotLimit, addressTable, addressStride, UInt64.size]
  omega

theorem addressLow_lt_iff (slot : Nat) : addressLow slot < UInt64.size ↔ slot < slotLimit := by
  simp only [addressLow, slotLimit, addressTable, addressStride, UInt64.size]
  omega

def mmcControl : Nat := 0x0700
def txPacketsGoodBad : Nat := 0x0718
def txUnderflowErrors : Nat := 0x0748
def txCarrierErrors : Nat := 0x0760
def txPacketsGood : Nat := 0x0768
def txPausePackets : Nat := 0x0770
def rxPacketsGoodBad : Nat := 0x0780
def rxCrcErrors : Nat := 0x0794
def rxLengthErrors : Nat := 0x07C8
def rxPausePackets : Nat := 0x07D0
def rxFifoOverflows : Nat := 0x07D4
def rxWatchdogErrors : Nat := 0x07DC

def mtlTxOperation : Nat := 0x0D00
def mtlRxOperation : Nat := 0x0D30

def dmaMode : Nat := 0x1000
def dmaSystemBus : Nat := 0x1004
def channelControl : Nat := 0x1100
def channelInterruptEnable : Nat := 0x1134
/-- Writing a one clears that bit. -/
def channelStatus : Nat := 0x1160

def directory : List (String × Nat) :=
  [ ("MAC_CONFIGURATION", macConfiguration),
    ("MAC_PACKET_FILTER", macPacketFilter),
    ("MAC_TX_FLOW_CTRL", macTxFlowControl),
    ("MAC_RX_FLOW_CTRL", macRxFlowControl),
    ("MAC_RXQ_CTRL0", macRxQueueControl),
    ("MAC_INTERRUPT_STATUS", macInterruptStatus),
    ("MAC_INTERRUPT_ENABLE", macInterruptEnable),
    ("MAC_1US_TIC_COUNTER", macMicrosecondTick),
    ("MAC_PHYIF_CONTROL_STATUS", macPhyStatus),
    ("MAC_VERSION", macVersion),
    ("MAC_HW_FEATURE0", macFeature0),
    ("MAC_HW_FEATURE1", macFeature1),
    ("MAC_HW_FEATURE2", macFeature2),
    ("MAC_HW_FEATURE3", macFeature3),
    ("MMC_CONTROL", mmcControl),
    ("TX_PACKET_COUNT_GOOD_BAD", txPacketsGoodBad),
    ("TX_UNDERFLOW_ERROR_PACKETS", txUnderflowErrors),
    ("TX_CARRIER_ERROR_PACKETS", txCarrierErrors),
    ("TX_PACKET_COUNT_GOOD", txPacketsGood),
    ("TX_PAUSE_PACKETS", txPausePackets),
    ("RX_PACKET_COUNT_GOOD_BAD", rxPacketsGoodBad),
    ("RX_CRC_ERROR_PACKETS", rxCrcErrors),
    ("RX_LENGTH_ERROR_PACKETS", rxLengthErrors),
    ("RX_PAUSE_PACKETS", rxPausePackets),
    ("RX_FIFO_OVERFLOW_PACKETS", rxFifoOverflows),
    ("RX_WATCHDOG_ERROR_PACKETS", rxWatchdogErrors),
    ("MTL_TXQ0_OPERATION_MODE", mtlTxOperation),
    ("MTL_RXQ0_OPERATION_MODE", mtlRxOperation),
    ("DMA_MODE", dmaMode),
    ("DMA_SYSBUS_MODE", dmaSystemBus),
    ("DMA_CH0_CONTROL", channelControl),
    ("DMA_CH0_INTERRUPT_ENABLE", channelInterruptEnable),
    ("DMA_CH0_STATUS", channelStatus) ]

end Register

end EthernetMac
