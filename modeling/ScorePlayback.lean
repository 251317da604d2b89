import ScorePlayback.Main
import ScorePlayback.Proofs.Player.Termination
import ScorePlayback.Proofs.Repeat.Endings
import ScorePlayback.Proofs.Repeat.Skips
import ScorePlayback.Proofs.Repeat.Unrolling
import ScorePlayback.Time.Exact
import ScorePlayback.Proofs.Player.Counting
import ScorePlayback.Proofs.Repeat.Origins
import ScorePlayback.Proofs.Analysis.MarkOrder
import ScorePlayback.Proofs.Player.Coverage
import ScorePlayback.Proofs.Repeat.Coverage
import ScorePlayback.Proofs.Repeat.Orphans
import ScorePlayback.Proofs.Repeat.OrphanObjects
import ScorePlayback.Proofs.Repeat.WholeMeasures
import ScorePlayback.Proofs.Repeat.Conservation
import ScorePlayback.Proofs.Repeat.Directions
import ScorePlayback.Proofs.Sound.EventOrder
import ScorePlayback.Proofs.Sound.TiedSounds
import ScorePlayback.Proofs.Sound.Completeness
import ScorePlayback.Proofs.Sound.MeasureBlocks
import ScorePlayback.Proofs.Analysis.Independence
import ScorePlayback.Proofs.Analysis.DroppedElements
import ScorePlayback.Proofs.Analysis.DistinctNotes
import ScorePlayback.Proofs.Relation.Accounting
import ScorePlayback.Proofs.Analysis.AcceptedNotes
import ScorePlayback.Proofs.Analysis.MatchedMarkers
import ScorePlayback.Proofs.Analysis.TurningBack
import ScorePlayback.Proofs.Analysis.DisabledSyntax
import ScorePlayback.Proofs.Analysis.AutomaticBeams
import ScorePlayback.Proofs.Analysis.VoiceOrder
import ScorePlayback.Proofs.Notation.Printing
import ScorePlayback.Proofs.Analysis.Reformatting
import ScorePlayback.Proofs.Analysis.ReportLines
import ScorePlayback.Proofs.Sound.TieChains
import ScorePlayback.Proofs.Analysis.TupletRatios
import ScorePlayback.Proofs.Analysis.TupletMembers
import ScorePlayback.Proofs.Analysis.ChordDurations
import ScorePlayback.Proofs.Relation.LegacyBeamMatching
import ScorePlayback.Proofs.Relation.LegacyTieResolution
import ScorePlayback.Proofs.Staff.BeamRuns
import ScorePlayback.Proofs.Analysis.Alterations
import ScorePlayback.Proofs.Analysis.CarriedAccidentals
import ScorePlayback.Proofs.Analysis.InheritedContext
import ScorePlayback.Proofs.Notation.StringLiterals
import ScorePlayback.Proofs.Notation.ViablePrefixes
import ScorePlayback.Proofs.Staff.WrittenPitches
