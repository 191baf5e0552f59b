import PetaBricks.DynamicTaskCancelProofs
import PetaBricks.ScheduleOrderProofs
import PetaBricks.SlicedScheduleProofs
import PetaBricks.IndirectDependsProofs
import PetaBricks.RuleChoiceProofs
import PetaBricks.RemoteChannelProofs
import PetaBricks.AbortTaskProgressProofs
import PetaBricks.RegionMatrixProofs
import PetaBricks.IterationSplitProofs
import PetaBricks.ChoiceGridProofs
import PetaBricks.RemoteCacheProofs
import PetaBricks.HandlerChainProofs
import PetaBricks.ForwardingProofs
import PetaBricks.DataDependencyProofs
import PetaBricks.DimensionSoundnessProofs
import PetaBricks.DistributedGCEndProofs
import PetaBricks.DistributedGCStampProofs
import PetaBricks.DistributedGCTokenProofs
import PetaBricks.DistributedGCScanProofs
import PetaBricks.DistributedGCTableProofs
import PetaBricks.DistributedGCSafetyProofs
import PetaBricks.IterationLoopProofs
import PetaBricks.RegionDataSplitProofs
import PetaBricks.LocalRegionProofs
import PetaBricks.RegionSerialProofs
import PetaBricks.FormulaPrintProofs
import PetaBricks.SubRegionCacheProofs
import PetaBricks.DependencyCoverProofs
import PetaBricks.ApplicableIntersectionProofs
import PetaBricks.SimulationProofs
import PetaBricks.RuleBodyModel
import PetaBricks.RuleBodyProofs
import PetaBricks.ContinuationProofs
import PetaBricks.MaximaWrapperModel
import PetaBricks.MaximaWrapperProofs
import PetaBricks.MemoizationModel
import PetaBricks.MemoizationProofs
import PetaBricks.DecimalProofs
import PetaBricks.MatrixFileModel
import PetaBricks.MatrixFileProofs
import PetaBricks.SlotFoldProofs
import PetaBricks.HighLevelConfigModel
import PetaBricks.HighLevelConfigProofs
import PetaBricks.TunedConfigProofs
import PetaBricks.DecimalFractionProofs
import PetaBricks.TextProofs
import PetaBricks.ConfigFileModel
import PetaBricks.ConfigFileProofs
import PetaBricks.ConfigExchangeProofs
import PetaBricks.LexerProofs
import PetaBricks.YaccProofs
import PetaBricks.FormulaTextModel
import PetaBricks.MaximaParserModel
import PetaBricks.FormulaEvolveModel
import PetaBricks.MaximaParserProofs
import PetaBricks.HeuristicTextProofs
import PetaBricks.FormulaEvolveProofs
import PetaBricks.LearningLoopProofs
import PetaBricks.StableSortProofs
import PetaBricks.LearningCompilerModel
import PetaBricks.LearningCompilerProofs
import PetaBricks.IterationOrderProofs
import PetaBricks.ParameterSearchProofs
import PetaBricks.FloorCeilingProofs
import PetaBricks.HeuristicDBProofs
import PetaBricks.PopulationProofs
import PetaBricks.WorkerPoolProofs
import PetaBricks.WhereClauseProofs
import PetaBricks.CopyoutProofs
import PetaBricks.ScopingProofs
import PetaBricks.LiftVardeclModel
import PetaBricks.LiftVardeclProofs
import PetaBricks.DuplicateNumberProofs
import PetaBricks.TemplateDispatchProofs
import PetaBricks.RemoteScheduleProofs
import PetaBricks.DistributedAllocModel
import PetaBricks.DistributedAllocProofs
import PetaBricks.WhereRuleModel
import PetaBricks.WhereRuleProofs
import PetaBricks.MatrixRegionModel
import PetaBricks.BoxTraversalProofs
import PetaBricks.MatrixRegionProofs
import PetaBricks.ScatterProofs
import PetaBricks.NormalizedRegionModel
import PetaBricks.NormalizedRegionProofs
import PetaBricks.DataHostsModel
import PetaBricks.PartTraversalProofs
import PetaBricks.DataHostsProofs
import PetaBricks.SizeInferenceModel
import PetaBricks.SizeQuotientProofs
import PetaBricks.SizeInferenceProofs
import PetaBricks.DequeProofs
import PetaBricks.THEDequeProofs
import PetaBricks.NonSelfDependentProofs
import PetaBricks.WordBufferProofs
import PetaBricks.ScratchMetadataModel
import PetaBricks.ScratchMetadataProofs
import PetaBricks.ScratchCopyModel
import PetaBricks.ScratchPieceProofs
import PetaBricks.AffineBoxProofs
import PetaBricks.IterationBoundsModel
import PetaBricks.IterationBoundsProofs
import PetaBricks.BoundingBoxProofs
import PetaBricks.RegionAccessProofs
import PetaBricks.BlockFormProofs
import PetaBricks.RegionShapeProofs
import PetaBricks.ScratchRegionProofs
import PetaBricks.EventualProofs
import PetaBricks.SocketNetProofs
import PetaBricks.SetupModel
import PetaBricks.SetupHandshakeProofs
import PetaBricks.SetupServeProofs
import PetaBricks.SetupLinkProofs
import PetaBricks.SetupProofs
import PetaBricks.ScratchStorageProofs
import PetaBricks.ScratchPartsProofs
import PetaBricks.ScratchCopyProofs
