import PucRio.Consensus.Agreement
import PucRio.Consensus.Quorum
import PucRio.Consensus.Validity
import PucRio.Raft.Tally
import PucRio.RaftRpc.Framing
import PucRio.RaftRpc.Wakeups
import PucRio.Sanders.DistrictRepository
import PucRio.LimitedBuffer.Progress
import PucRio.RumorRouting.Queries
import PucRio.Mam.Relay
import PucRio.Mam.FriendQueue
import PucRio.Ludo.Occupancy
import PucRio.Ludo.Continuation
import PucRio.Ludo.Ways
import PucRio.Gamao.Symmetry
import PucRio.Gamao.Motivo
import PucRio.Ludo.SaveFile
import PucRio.Ludo.DistanceToPocket
import PucRio.Tsp.ParallelSearch
import PucRio.Aquad.NoResultLost
import PucRio.Aquad.IdleWorkers
import PucRio.Tsp.Search
import PucRio.Tsp.QueueBound
import PucRio.Sb.Quadro
import PucRio.Sb.Correctness
import PucRio.Semantics.Agreement
import PucRio.Semantics.Break
import PucRio.Monga.StringTokens
import PucRio.Monga.WellFormed
import PucRio.Monga.Declarations
import PucRio.Monga.ScopeStack
import PucRio.Monga.Compiled
import PucRio.SimVirtual.SecondChance
import PucRio.SimVirtual.Comparison
import PucRio.Escalonador.Lottery
import PucRio.Escalonador.RoundRobin
import PucRio.Escalonador.Escolha
import PucRio.Superpixels.Seeds
import PucRio.Superpixels.Regions
import PucRio.Pathfinding.FindPath
import PucRio.Pathfinding.AttackPlan
import PucRio.Compacta.Resto
import PucRio.Matriz.Formas
import PucRio.Dungeon.Runs
import PucRio.TypedRpc.Registered
import PucRio.Lib.LabelledCode
import PucRio.Monga.Labels
import PucRio.Monga.ShortCircuit
import PucRio.Semantics.RegularExpressions
import PucRio.Semantics.CallByName
