import NestTuner.Main
import NestTuner.Proofs.Arena
import NestTuner.Proofs.Coverage
import NestTuner.Proofs.Meaning
import NestTuner.Proofs.Ordering
import NestTuner.Proofs.Best
import NestTuner.Proofs.Bookkeeping
import NestTuner.Proofs.Defects
import NestTuner.Proofs.Deduplication
import NestTuner.Proofs.Deepening
import NestTuner.Proofs.Greedy
import NestTuner.Proofs.CostOrder
import NestTuner.Proofs.Repetition
import NestTuner.Proofs.Naming
import NestTuner.Proofs.Scope
import NestTuner.Proofs.Durations
import NestTuner.Proofs.Races
import NestTuner.Proofs.Finiteness
import NestTuner.Proofs.Swaps
import NestTuner.Proofs.Overflow
import NestTuner.Proofs.Typing
import NestTuner.Proofs.Assignment
import NestTuner.Proofs.Planning
import NestTuner.Proofs.Summaries
import NestTuner.Proofs.Scripts
import NestTuner.Proofs.Statistics
import NestTuner.Session.World
