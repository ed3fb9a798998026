import EnvFile.Host
import EnvFile.Main
import EnvFile.Proofs.AssignedKeys
import EnvFile.Proofs.Chains
import EnvFile.Proofs.CleanReloads
import EnvFile.Proofs.DeclarationGrammar
import EnvFile.Proofs.DeclarationOrder
import EnvFile.Proofs.DepthLimits
import EnvFile.Proofs.DraftedEntries
import EnvFile.Proofs.EditedLines
import EnvFile.Proofs.FailedAssignments
import EnvFile.Proofs.FilteredLines
import EnvFile.Proofs.ForcedReloads
import EnvFile.Proofs.FullClears
import EnvFile.Proofs.HarmlessCache
import EnvFile.Proofs.HazardLanguage
import EnvFile.Proofs.LaterFiles
import EnvFile.Proofs.LatestReadings
import EnvFile.Proofs.LoadFaults
import EnvFile.Proofs.LoadedRuns
import EnvFile.Proofs.Mirroring
import EnvFile.Proofs.NextLoads
import EnvFile.Proofs.OwnKeys
import EnvFile.Proofs.Phrases
import EnvFile.Proofs.RepeatedSaves
import EnvFile.Proofs.ReportedChains
import EnvFile.Proofs.SkippedLines
import EnvFile.Proofs.SparedKeys
import EnvFile.Proofs.TrailingComments
import EnvFile.Proofs.UsableSettings
import EnvFile.Proofs.WholeFiles
import EnvFile.Proofs.WrittenNames
import EnvFile.Proofs.WrittenScalars
