import RegionIR.CommandLine
import RegionIR.Dialect.Walk
import RegionIR.Main
import RegionIR.Proofs.Context.BlockOrder
import RegionIR.Proofs.Lowering.Commuting
import RegionIR.Proofs.Lowering.Completeness
import RegionIR.Proofs.Lowering.Leftovers
import RegionIR.Proofs.Lowering.Progress
import RegionIR.Proofs.Lowering.Relowering
import RegionIR.Proofs.Lowering.Scopes
import RegionIR.Proofs.Lowering.SecondRun
import RegionIR.Proofs.Lowering.Shape
import RegionIR.Proofs.Lowering.Total
import RegionIR.Proofs.Lowering.Verdict
import RegionIR.Proofs.Rewrite.Halting
import RegionIR.Proofs.Rewrite.Substitution
import RegionIR.Proofs.Source.Additions
import RegionIR.Proofs.Source.Binding
import RegionIR.Proofs.Source.Integers
import RegionIR.Proofs.Source.Progress
import RegionIR.Proofs.Source.Renaming
import RegionIR.Proofs.Source.Validity
import RegionIR.Proofs.Types.PlainConversion
import RegionIR.Proofs.Types.Sharing
import RegionIR.Proofs.Types.TableTuples
