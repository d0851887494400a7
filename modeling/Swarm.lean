import Swarm.Behaviour.Draining
import Swarm.Behaviour.Handlers
import Swarm.Behaviour.Metrics
import Swarm.Behaviour.Poll
import Swarm.Behaviour.Requests
import Swarm.Consensus.Feed
import Swarm.Consensus.Graph
import Swarm.Consensus.Run
import Swarm.Consensus.Signatures
import Swarm.DataMemory.Answers
import Swarm.DataMemory.Arrivals
import Swarm.DataMemory.Events
import Swarm.DataMemory.Gathering
import Swarm.DataMemory.Locations
import Swarm.DataMemory.Loop
import Swarm.DataMemory.Memory
import Swarm.DataMemory.Recollection
import Swarm.DataMemory.Serving
import Swarm.DataMemory.Storage
import Swarm.Encoding.OneParity
import Swarm.Encoding.ReedSolomon
import Swarm.Encoding.RoundTrip
import Swarm.InstructionStorage.Completion
import Swarm.InstructionStorage.Memory
import Swarm.Lib.Actors
import Swarm.Lib.Bus
import Swarm.Lib.Channel
import Swarm.Lib.Credit
import Swarm.Lib.Dag
import Swarm.Lib.Ed25519
import Swarm.Lib.Finmap
import Swarm.Lib.Ledger
import Swarm.Lib.Machine
import Swarm.Lib.Mds
import Swarm.Lib.Override
import Swarm.Lib.Simulation
import Swarm.Lib.Threshold
import Swarm.Lib.WireFormat
import Swarm.Network.Addressing
import Swarm.Network.Broadcast
import Swarm.Network.Completion
import Swarm.Network.Confirmation
import Swarm.Network.Correlation
import Swarm.Network.Deployment
import Swarm.Network.Distribution
import Swarm.Network.Executions
import Swarm.Network.Gets
import Swarm.Network.Locations
import Swarm.Network.Machine
import Swarm.Network.Notifications
import Swarm.Network.Overwriting
import Swarm.Network.Polling
import Swarm.Network.Programs
import Swarm.Network.Puts
import Swarm.Network.Queues
import Swarm.Network.Recollection
import Swarm.Network.Requests
import Swarm.Network.Rest
import Swarm.Network.System
import Swarm.Network.Termination
import Swarm.Node.Computation
import Swarm.Node.Formation
import Swarm.Node.Frame
import Swarm.Node.Identifiers
import Swarm.Node.Initialization
import Swarm.Node.Pipeline
import Swarm.Node.Tile
import Swarm.Node.Visibility
import Swarm.Processor.Agreement
import Swarm.Processor.Exchanges
import Swarm.Processor.Instruction
import Swarm.Processor.Mock
import Swarm.Processor.Refinement
import Swarm.Processor.SingleThreaded
import Swarm.Protocol.Messages
import Swarm.Protocol.Wire
import Swarm.Types
