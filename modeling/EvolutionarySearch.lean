import EvolutionarySearch.Error
import EvolutionarySearch.Log
import EvolutionarySearch.Rounding
import EvolutionarySearch.Binary64
import EvolutionarySearch.Decimal
import EvolutionarySearch.Duration
import EvolutionarySearch.Clock
import EvolutionarySearch.World
import EvolutionarySearch.Random.Word
import EvolutionarySearch.Random.Draw
import EvolutionarySearch.Random.Shuffle
import EvolutionarySearch.Random.Cycle
import EvolutionarySearch.Random.SplitMix
import EvolutionarySearch.Random.Keystream
import EvolutionarySearch.Random.Source
import EvolutionarySearch.Chromosome
import EvolutionarySearch.GeneSet
import EvolutionarySearch.Sorting.Insertion
import EvolutionarySearch.Sorting.Merge
import EvolutionarySearch.Sorting.Block
import EvolutionarySearch.Sorting.Run
import EvolutionarySearch.Sorting.Partition
import EvolutionarySearch.Sorting.Stable
import EvolutionarySearch.Search.Config
import EvolutionarySearch.Search.Problem
import EvolutionarySearch.Search.History
import EvolutionarySearch.Search.Repertoire
import EvolutionarySearch.Search.Note
import EvolutionarySearch.Search.Breeding
import EvolutionarySearch.Search.Basic
import EvolutionarySearch.Search.Step
import EvolutionarySearch.Search.Next
import EvolutionarySearch.Search.Run
import EvolutionarySearch.Climb.Basic
import EvolutionarySearch.Climb.Run
import EvolutionarySearch.Tournament.Record
import EvolutionarySearch.Tournament.Config
import EvolutionarySearch.Tournament.Problem
import EvolutionarySearch.Tournament.Round
import EvolutionarySearch.Tournament.Ranking
import EvolutionarySearch.Tournament.Breeding
import EvolutionarySearch.Tournament.Note
import EvolutionarySearch.Tournament.Generation
import EvolutionarySearch.Tournament.Run
import EvolutionarySearch.Proofs.Fitness
import EvolutionarySearch.Proofs.Sorting.Order
import EvolutionarySearch.Proofs.Sorting.Merge
import EvolutionarySearch.Proofs.Sorting.Stable
import EvolutionarySearch.Proofs.Search.Turn
import EvolutionarySearch.Proofs.Search.Session
import EvolutionarySearch.Proofs.Search.Signal
import EvolutionarySearch.Proofs.Search.Grammar
import EvolutionarySearch.Proofs.Search.Ledger
import EvolutionarySearch.Proofs.Search.Ascent
import EvolutionarySearch.Proofs.Search.Refill
import EvolutionarySearch.Proofs.Search.Bound
import EvolutionarySearch.Proofs.Search.Maxima
import EvolutionarySearch.Proofs.Random.Alike
import EvolutionarySearch.Proofs.Search.Grading
import EvolutionarySearch.Proofs.Search.Mirror
import EvolutionarySearch.Proofs.Search.Truncation
import EvolutionarySearch.Proofs.Search.Journal
import EvolutionarySearch.Proofs.Search.Conduct
import EvolutionarySearch.Proofs.Tournament.Season
import EvolutionarySearch.Proofs.Tournament.Champion
import EvolutionarySearch.Proofs.Tournament.Couples
import EvolutionarySearch.Proofs.Tournament.Tally
import EvolutionarySearch.Proofs.Tournament.Succession
import EvolutionarySearch.Proofs.Tournament.Balance
import EvolutionarySearch.Proofs.Tournament.Lineage
import EvolutionarySearch.Proofs.Climb.Rounds
import EvolutionarySearch.Proofs.Climb.Contract
import EvolutionarySearch.Proofs.Climb.Standstill
import EvolutionarySearch.Proofs.Search.Regrading
import EvolutionarySearch.Proofs.Search.Calls
import EvolutionarySearch.Proofs.Search.Creation
import EvolutionarySearch.Proofs.Search.Deadline
import EvolutionarySearch.Proofs.Search.Walk
import EvolutionarySearch.Proofs.Search.Overtime
import EvolutionarySearch.Proofs.Search.Population
import EvolutionarySearch.Proofs.Search.Integrity
import EvolutionarySearch.Proofs.Search.GeneSpace
import EvolutionarySearch.Proofs.Search.Visits
import EvolutionarySearch.Proofs.Search.Agelessness
import EvolutionarySearch.Proofs.Tournament.Extension
import EvolutionarySearch.Proofs.Search.RoundRobin
import EvolutionarySearch.Proofs.Search.Slots
import EvolutionarySearch.Proofs.Search.Frame
import EvolutionarySearch.Proofs.Search.Aging
import EvolutionarySearch.Proofs.Random.Attained
import EvolutionarySearch.Proofs.Genes.Variation
import EvolutionarySearch.Proofs.Search.Recombination
import EvolutionarySearch.Proofs.Search.Rotation
import EvolutionarySearch.Proofs.Genes.Blocks
import EvolutionarySearch.Proofs.Search.Percentile
import EvolutionarySearch.Proofs.Search.Timeout
import EvolutionarySearch.Proofs.Time.Nearest
import EvolutionarySearch.Proofs.Time.Double
import EvolutionarySearch.Proofs.Time.Seconds
import EvolutionarySearch.Proofs.Tournament.Capacity
