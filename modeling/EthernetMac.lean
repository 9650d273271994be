import EthernetMac.Inventory
import EthernetMac.Proofs.Interrupt.Delivery
import EthernetMac.Proofs.Link.Duty
import EthernetMac.Proofs.Link.Soundness
import EthernetMac.Proofs.Link.Freshness
import EthernetMac.Proofs.Interrupt.Edits
import EthernetMac.Proofs.Interrupt.Agreement
import EthernetMac.Proofs.Interrupt.Turns
import EthernetMac.Proofs.Interrupt.Marks
import EthernetMac.Proofs.Interrupt.Notices
import EthernetMac.Proofs.Interrupt.Wakeup
import EthernetMac.Proofs.Adapter.Verdict
import EthernetMac.Proofs.Adapter.Window
import EthernetMac.Proofs.Power.Lifecycle
import EthernetMac.Proofs.Address.Permanent
import EthernetMac.Proofs.Filter.Reflection
import EthernetMac.Proofs.Filter.Capacity
import EthernetMac.Proofs.Power.Overtaking
import EthernetMac.Proofs.Interrupt.Preemption
import EthernetMac.Proofs.Interrupt.Coalescing
import EthernetMac.Proofs.Interrupt.Erasure
import EthernetMac.Proofs.Reach
import EthernetMac.Proofs.Power.Misuse
import EthernetMac.Proofs.Interrupt.Service
import EthernetMac.Proofs.Interrupt.Quieting
import EthernetMac.Proofs.Interrupt.Bookkeeping
import EthernetMac.Proofs.Interrupt.Tally
import EthernetMac.Proofs.Interrupt.Draining
import EthernetMac.Proofs.Adapter.Scan
import EthernetMac.Proofs.Adapter.Reset
import EthernetMac.Proofs.Address.Selection
import EthernetMac.Proofs.Address.Fallback
import EthernetMac.Proofs.Filter.Sequence
import EthernetMac.Proofs.Link.Reconciliation
import EthernetMac.Proofs.Power.Entering
import EthernetMac.Proofs.Address.Encoding
import EthernetMac.Proofs.Register.Accessors
import EthernetMac.Proofs.Address.Buffer
import EthernetMac.Proofs.Adapter.Imprint
