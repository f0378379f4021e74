import OsLab.LoopProofs
import OsLab.HeapProofs
import OsLab.DyadicProofs
import OsLab.BuddyModelProofs
import OsLab.BuddyInvariantProofs
import OsLab.BuddySurgeryProofs
import OsLab.BuddyStepsProofs
import OsLab.BuddyPlacementProofs
import OsLab.BuddyCallsProofs
import OsLab.BuddyCaseProofs
import OsLab.BuddyListsProofs
import OsLab.BuddyStableProofs
import OsLab.BuddyRefusalProofs
import OsLab.BytesProofs
import OsLab.MfsModelProofs
import OsLab.MfsImmediateProofs
import OsLab.MfsConvertProofs
import OsLab.MfsOverrunProofs
import OsLab.MfsGrowErrorProofs
import OsLab.MfsZoneMapProofs
import OsLab.MfsChunkProofs
import OsLab.MfsWriteProofs
import OsLab.VfsModelProofs
import OsLab.MfsSizeProofs
import OsLab.VfsSizesProofs
import OsLab.VfsTruncateProofs
import OsLab.BuddySafetyProofs
import OsLab.SjfModelProofs
import OsLab.GanttProofs
import OsLab.SjfTurnProofs
import OsLab.SjfServiceProofs
import OsLab.SjfDispatchProofs
import OsLab.SjfFinishProofs
import OsLab.PagersModelProofs
import OsLab.PagersRunProofs
import OsLab.PagersSpecProofs
import OsLab.PagersSafetyProofs
import OsLab.SchedModelProofs
import OsLab.ImageModelProofs
import OsLab.ImagePassesProofs
import OsLab.SchedRangeProofs
import OsLab.ThreadsModelProofs
import OsLab.ThreadsRaceProofs
import OsLab.PpmModelProofs
import OsLab.PipesModelProofs
import OsLab.PpmReadProofs
import OsLab.PipesProofs
import OsLab.SharedModelProofs
import OsLab.SharedRaceProofs
import OsLab.SjfStatisticsProofs
import OsLab.SjfTurnaroundProofs
import OsLab.SjfWaitingProofs
import OsLab.RrModelProofs
import OsLab.RrRunProofs
import OsLab.LedgerProofs
import OsLab.UnlinkModelProofs
import OsLab.UnlinkProofs
import OsLab.MfsPeekProofs
import OsLab.VfsSeekProofs
import OsLab.MfsFreeProofs
import OsLab.MfsTruncateProofs
import OsLab.PpmRoundTripProofs
import OsLab.ImageMagnitudeProofs
import OsLab.ImageBoundsProofs
import OsLab.SchedNiceProofs
import OsLab.SjfSelectProofs
import OsLab.BuddySetupProofs
import OsLab.CircularProofs
import OsLab.CQueueModelProofs
import OsLab.CQueueProofs
import OsLab.RrQueueProofs
import OsLab.SjfInputProofs
import OsLab.RrFairProofs
import OsLab.BuddyInputModelProofs
import OsLab.SimilarProofs
import OsLab.BuddyAlikeProofs
import OsLab.BuddyInputProofs
import OsLab.ForkExitCallsProofs
import OsLab.ForkExitRunProofs
import OsLab.FillProofs
import OsLab.MfsGetdentsModelProofs
import OsLab.MfsGetdentsProofs
import OsLab.MfsListingProofs
import OsLab.MfsServeProofs
import OsLab.BuddyReportProofs
import OsLab.LinkCallsModelProofs
import OsLab.LinkCallsProofs
import OsLab.SchedDeadProofs
import OsLab.SegmentationProofs
import OsLab.PageTableProofs
