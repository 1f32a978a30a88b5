import CriptoParser.AwaitParts
import CriptoParser.CollectorSockets
import CriptoParser.ExecutorLoop
import CriptoParser.ScannerLoop
import CriptoParser.SharedConfig

/-!
The collectors of any exchanges, the scanner and the executor on one Redis. The collectors write
the stream of prices and the depth keys; the scanner reads both and writes the stream of
opportunities; the executor reads that and the depth keys again.
-/

set_option autoImplicit false

namespace CriptoParser

open Await Streams

/-- What an `ExchangeCollector` is made with. `create_exchange` raises for an exchange that is not
configured. -/
structure ExchangeCollector where
  name : String
  symbols : List String
  multiplexed : Bool
  configured : (exchangeConfig name).isSome = true

def ExchangeCollector.taskCount (c : ExchangeCollector) : ℕ :=
  CriptoParser.taskCount c.multiplexed c.name c.symbols

section
variable {ι : Type}

inductive MarketCall (ι : Type) where
  | collector (k : ι) (c : SocketCall)
  | service (c : Call)

abbrev MarketCall.Reply : MarketCall ι → Type
  | .collector _ c => c.Reply
  | .service c => c.Reply

abbrev Market (ι : Type) : Signature := ⟨MarketCall ι, MarketCall.Reply, PyExc⟩

structure MarketWorld (ι : Type) where
  collectors : ι → SocketWorld
  services : World
  depths : String → Option String
  expired : ℕ → String → Bool

namespace MarketWorld
variable (w : MarketWorld ι)

def atCollector (k : ι) : SocketWorld :=
  { w.collectors k with prices := [], strings := w.depths }

/-- What a service finds: the depth keys, and nothing in the streams from outside. -/
def outside : Outside :=
  { w.services.now with
    depth := fun key => if w.expired w.services.tick key then none else w.depths key
    arrivals := [] }

variable [DecidableEq ι]

def serve : Server (Market ι) (MarketWorld ι)
  | .collector k c, w =>
    let after := SocketWorld.serve c (w.atCollector k)
    (after.1, { w with
      collectors := Function.update w.collectors k after.2
      depths := after.2.strings
      services := w.services.setStream pricesStream
        ((w.services.streams pricesStream).append after.2.prices) })
  | .service c, w =>
    let after := World.serve c { w.services with outside := fun _ => w.outside }
    (after.1, { w with services := { after.2 with outside := w.services.outside } })

def ready : MarketCall ι → MarketWorld ι → Bool
  | .collector k c, w => (w.collectors k).ready c
  | .service _, _ => true

end MarketWorld

/-- Nothing has been published; the exchanges hold some balances. -/
def MarketWorld.start (hashes : String → String → Option ℚ) (sockets : ι → ℕ → SocketOutside)
    (services : ℕ → Outside) (expired : ℕ → String → Bool) : MarketWorld ι where
  collectors k := SocketWorld.start [] (fun _ => none) (sockets k)
  services := { World.start services with hashes := hashes }
  depths := fun _ => none
  expired := expired

inductive MarketTask (ι : Type) where
  | socket (k : ι) (i : ℕ)
  | scanner
  | executor
  deriving DecidableEq

end

end CriptoParser
