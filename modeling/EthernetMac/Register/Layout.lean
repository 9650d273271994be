import EthernetMac.Register.Field

namespace EthernetMac

abbrev Layout := List (String × Field)

namespace DmaMode

def softwareReset : Field := .flag 0

def layout : Layout :=
  [("software_reset", softwareReset)]

end DmaMode

namespace DmaSystemBus

def fixedBurst : Field := .flag 0
def burstLength4 : Field := .flag 1
def burstLength8 : Field := .flag 2
def burstLength16 : Field := .flag 3
def mixedBurst : Field := .flag 14
def maxReadOutstanding : Field := ⟨16, 4, by decide⟩
def maxWriteOutstanding : Field := ⟨24, 4, by decide⟩

def layout : Layout :=
  [ ("fixed_burst", fixedBurst),
    ("burst_length4", burstLength4),
    ("burst_length8", burstLength8),
    ("burst_length16", burstLength16),
    ("mixed_burst", mixedBurst),
    ("axi_max_read_outstanding", maxReadOutstanding),
    ("axi_max_write_outstanding", maxWriteOutstanding) ]

end DmaSystemBus

namespace ChannelControl

def burstTimesEight : Field := .flag 16
/-- Bus words between one descriptor and the next. -/
def descriptorSkip : Field := ⟨18, 3, by decide⟩

def layout : Layout :=
  [("pbl_x8", burstTimesEight), ("descriptor_skip_length", descriptorSkip)]

end ChannelControl

namespace ChannelInterruptEnable

def transmit : Field := .flag 0
def receive : Field := .flag 6
def fatalBusError : Field := .flag 12
def abnormalSummary : Field := .flag 14
def normalSummary : Field := .flag 15

def layout : Layout :=
  [ ("tx", transmit),
    ("rx", receive),
    ("fatal_bus_error", fatalBusError),
    ("abnormal_interrupt_summary", abnormalSummary),
    ("normal_interrupt_summary", normalSummary) ]

end ChannelInterruptEnable

namespace ChannelStatus

def transmit : Field := .flag 0
def transmitStopped : Field := .flag 1
def transmitBufferUnavailable : Field := .flag 2
def receive : Field := .flag 6
def receiveBufferUnavailable : Field := .flag 7
def receiveStopped : Field := .flag 8
def receiveWatchdog : Field := .flag 9
def fatalBusError : Field := .flag 12
def abnormalSummary : Field := .flag 14
def normalSummary : Field := .flag 15
def transmitError : Field := ⟨16, 3, by decide⟩
def receiveError : Field := ⟨19, 3, by decide⟩

def layout : Layout :=
  [ ("tx", transmit),
    ("tx_stopped", transmitStopped),
    ("tx_buffer_unavailable", transmitBufferUnavailable),
    ("rx", receive),
    ("rx_buffer_unavailable", receiveBufferUnavailable),
    ("rx_stopped", receiveStopped),
    ("rx_watchdog", receiveWatchdog),
    ("fatal_bus_error", fatalBusError),
    ("abnormal_interrupt_summary", abnormalSummary),
    ("normal_interrupt_summary", normalSummary),
    ("tx_error_bits", transmitError),
    ("rx_error_bits", receiveError) ]

def hardwareBits : Word := 0x003FFFFF

end ChannelStatus

namespace MacConfiguration

def receiverEnable : Field := .flag 0
def transmitterEnable : Field := .flag 1
def ignoreCarrierSense : Field := .flag 9
def fullDuplex : Field := .flag 13
def portSpeed : Field := ⟨14, 2, by decide⟩
def packetBurst : Field := .flag 18

def port1000M : Word := 0
def port10M : Word := 2
def port100M : Word := 3

def layout : Layout :=
  [ ("receiver_enable", receiverEnable),
    ("transmitter_enable", transmitterEnable),
    ("disable_carrier_sense_during_transmit", ignoreCarrierSense),
    ("full_duplex", fullDuplex),
    ("packet_burst_enable", packetBurst),
    ("port_select_speed", portSpeed) ]

end MacConfiguration

namespace MacPacketFilter

def promiscuous : Field := .flag 0
def passAllMulticast : Field := .flag 4
def dropBroadcast : Field := .flag 5

def layout : Layout :=
  [ ("promiscuous_mode", promiscuous),
    ("pass_all_multicast", passAllMulticast),
    ("disable_broadcast", dropBroadcast) ]

end MacPacketFilter

namespace MacTxFlowControl

def enable : Field := .flag 1
def pauseTime : Field := ⟨16, 16, by decide⟩

def layout : Layout :=
  [("transmit_flow_control_enable", enable), ("pause_time", pauseTime)]

end MacTxFlowControl

namespace MacInterruptStatus

def linkStatus : Field := .flag 0

def layout : Layout :=
  [("link_status", linkStatus)]

end MacInterruptStatus

namespace MacInterruptEnable

def linkStatus : Field := .flag 0

def layout : Layout :=
  [("link_status", linkStatus)]

end MacInterruptEnable

namespace MacPhyStatus

def fullDuplex : Field := .flag 16
def speed : Field := ⟨17, 2, by decide⟩
def linkUp : Field := .flag 19

def clock2M5 : Word := 0
def clock25M : Word := 1
def clock125M : Word := 2

def layout : Layout :=
  [("full_duplex", fullDuplex), ("link_up", linkUp), ("speed", speed)]

end MacPhyStatus

namespace MacVersion

def core : Field := ⟨0, 8, by decide⟩
def vendor : Field := ⟨8, 8, by decide⟩

def layout : Layout :=
  [("snps_ver", core), ("user_ver", vendor)]

end MacVersion

namespace MacFeature0

def gigabit : Field := .flag 1
def addressCount : Field := ⟨18, 5, by decide⟩

def layout : Layout :=
  [("gmii", gigabit), ("mac_addr_count", addressCount)]

end MacFeature0

namespace MacFeature1

def rxFifo : Field := ⟨0, 5, by decide⟩
def txFifo : Field := ⟨6, 5, by decide⟩
def addressWidth : Field := ⟨14, 2, by decide⟩

def width32 : Word := 0
def width40 : Word := 1
def width48 : Word := 2

def layout : Layout :=
  [("rx_fifo_size", rxFifo), ("tx_fifo_size", txFifo), ("address_width", addressWidth)]

end MacFeature1

namespace AddressHigh

def byte4 : Field := ⟨0, 8, by decide⟩
def byte5 : Field := ⟨8, 8, by decide⟩
def enable : Field := .flag 31

def layout : Layout :=
  [("address_enable", enable), ("addr4", byte4), ("addr5", byte5)]

end AddressHigh

namespace AddressLow

def byte0 : Field := ⟨0, 8, by decide⟩
def byte1 : Field := ⟨8, 8, by decide⟩
def byte2 : Field := ⟨16, 8, by decide⟩
def byte3 : Field := ⟨24, 8, by decide⟩

def layout : Layout :=
  [("addr0", byte0), ("addr1", byte1), ("addr2", byte2), ("addr3", byte3)]

end AddressLow

namespace TxOperation

def storeAndForward : Field := .flag 1
def queueEnable : Field := ⟨2, 2, by decide⟩
/-- In blocks of 256 bytes, minus one. -/
def queueSize : Field := ⟨16, 9, by decide⟩

def layout : Layout :=
  [ ("store_and_forward", storeAndForward),
    ("queue_enable", queueEnable),
    ("queue_size", queueSize) ]

end TxOperation

namespace RxOperation

def forwardUndersizedGood : Field := .flag 3
def forwardErrors : Field := .flag 4
def storeAndForward : Field := .flag 5
def hardwareFlowControl : Field := .flag 7
def flowActivate : Field := ⟨8, 6, by decide⟩
def flowDeactivate : Field := ⟨14, 6, by decide⟩
/-- In blocks of 256 bytes, minus one. -/
def queueSize : Field := ⟨20, 10, by decide⟩

def layout : Layout :=
  [ ("forward_undersized_good_packets", forwardUndersizedGood),
    ("forward_error_packets", forwardErrors),
    ("store_and_forward", storeAndForward),
    ("hardware_flow_control", hardwareFlowControl),
    ("flow_control_activate", flowActivate),
    ("flow_control_deactivate", flowDeactivate),
    ("queue_size", queueSize) ]

end RxOperation

namespace Layout

def all : List Layout :=
  [ DmaMode.layout, DmaSystemBus.layout, ChannelControl.layout,
    ChannelInterruptEnable.layout, ChannelStatus.layout, MacConfiguration.layout,
    MacPacketFilter.layout, MacTxFlowControl.layout, MacInterruptStatus.layout,
    MacInterruptEnable.layout, MacPhyStatus.layout, MacVersion.layout,
    MacFeature0.layout, MacFeature1.layout, AddressHigh.layout, AddressLow.layout,
    TxOperation.layout, RxOperation.layout ]

end Layout

end EthernetMac
