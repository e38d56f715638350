import Presto.Registry.Exact
import Presto.Registry.Inherit
import Presto.Engine.Failure
import Presto.Engine.Cleanup
import Presto.Engine.StatusFrame
import Presto.Engine.Accounting
import Presto.Engine.MainLoop
import Presto.Engine.Directories
import Presto.Pipe.Run
import Presto.Pipe.Output
import Presto.Pipe.Dropped
import Presto.CommandLine.Usage
import Presto.Engine.Fresh
import Presto.Engine.Idempotent
import Presto.Md5.Reads
import Presto.Md5.Padded
import Presto.MakeDir
import Presto.CommandLine.Reading
import Presto.Merge.Fold
import Presto.Registry.Kinds
import Presto.Engine.Limits
import Presto.Engine.NewerRuns
import Presto.Engine.Order
import Presto.Engine.Determined
import Presto.Engine.Rebuild
import Presto.Engine.Question
import Presto.CommandLine.Variables
