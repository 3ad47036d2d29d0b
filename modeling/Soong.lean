import Soong.Lib.ListOrder
import Soong.Lib.Reach
import Soong.Android.Paths
import Soong.Go.Sort
import Soong.Go.Utf8
import Soong.Android.Util
import Soong.Android.Expand
import Soong.Cc.LinkOrder
import Soong.Go.Strings
import Soong.Go.Filepath
import Soong.Go.FilepathJoin
import Soong.Go.Runtime
import Soong.Go.Io
import Soong.Jar.Jar
import Soong.Zip.Writer
import Soong.Lib.FirstByKey
import Soong.Cmd.MergeZips
import Soong.Cmd.MergeZipsFirstWins
import Soong.Cmd.MergeZipsPar
import Soong.Cmd.Zip2zip
import Soong.Cmd.Zip2zipSelects
import Soong.Androidmk.Parser
import Soong.Androidmk.Values
import Soong.Androidmk.Split
import Soong.Makedeps.Deps
import Soong.Android.Namespace
import Soong.Android.NamespaceMemo
import Soong.Android.OncePer
import Soong.Ui.Status
import Soong.SymbolInject.Inject
import Soong.SymbolInject.Extract
import Soong.Androidmk.Run
import Soong.Androidmk.Words
import Soong.Makedeps.RoundTrip
import Soong.Go.Slice
import Soong.Ui.Environment
import Soong.Ui.Terminal
import Soong.Ui.SmartStatus
import Soong.Finder.Search
import Soong.Finder.Db
import Soong.Zip.RespFile
import Soong.Go.Os
import Soong.Ui.Logger
import Soong.Zip.Method
import Soong.Ui.Ninja
import Soong.Ui.Calls
import Soong.Ui.NinjaReader
import Soong.Ui.Kati
import Soong.Ui.Tracer
import Soong.Lib.SortedKeys
import Soong.Android.RuleBuilder
